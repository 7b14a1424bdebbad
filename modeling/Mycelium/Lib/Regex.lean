import Mathlib

/-!
# Regular expressions over character classes

Regular expressions whose letters are classes, given by their characteristic functions.  The
matcher takes derivatives and decides whether an expression matches a *whole* word.  The two
properties that programs need of an expression they have matched are read off its classes:
which letters a matched word can have, and under which changes of letters the matched words are
closed.
-/

namespace Lib

/-- Regular expressions over classes of letters. -/
inductive Regex (α : Type*) where
  | empty
  | eps
  | cls (p : α → Bool)
  | seq (r s : Regex α)
  | alt (r s : Regex α)
  | star (r : Regex α)

namespace Regex

variable {α : Type*}

/-! ### Derived forms -/

/-- A single letter. -/
def chr [DecidableEq α] (a : α) : Regex α := cls fun c => c == a

/-- Concatenation of a list of expressions. -/
def cat : List (Regex α) → Regex α
  | [] => eps
  | [r] => r
  | r :: rs => seq r (cat rs)

/-- Choice between the expressions of a list. -/
def any : List (Regex α) → Regex α
  | [] => empty
  | [r] => r
  | r :: rs => alt r (any rs)

/-- `r?`. -/
def opt (r : Regex α) : Regex α := alt r eps

/-- `r+`. -/
def plus (r : Regex α) : Regex α := seq r (star r)

/-- `r{n}`. -/
def rep (r : Regex α) : ℕ → Regex α
  | 0 => eps
  | n + 1 => seq r (rep r n)

/-- `r{0,n}`. -/
def upTo (r : Regex α) : ℕ → Regex α
  | 0 => eps
  | n + 1 => opt (seq r (upTo r n))

/-! ### The words of an expression -/

/-- The words that an expression matches. -/
inductive Matches : Regex α → List α → Prop
  | eps : Matches eps []
  | cls {p : α → Bool} {c : α} (h : p c = true) : Matches (cls p) [c]
  | seq {r s : Regex α} {v w : List α} : Matches r v → Matches s w → Matches (seq r s) (v ++ w)
  | altLeft {r s : Regex α} {w : List α} : Matches r w → Matches (alt r s) w
  | altRight {r s : Regex α} {w : List α} : Matches s w → Matches (alt r s) w
  | starNil {r : Regex α} : Matches (star r) []
  | starCons {r : Regex α} {v w : List α} :
      Matches r v → Matches (star r) w → Matches (star r) (v ++ w)

lemma matches_empty_iff {w : List α} : Matches empty w ↔ False := by
  refine ⟨fun h => ?_, False.elim⟩
  cases h

lemma matches_eps_iff {w : List α} : Matches eps w ↔ w = [] := by
  constructor
  · intro h
    cases h
    rfl
  · rintro rfl
    exact .eps

lemma matches_seq_iff {r s : Regex α} {w : List α} :
    Matches (seq r s) w ↔ ∃ u v, Matches r u ∧ Matches s v ∧ u ++ v = w := by
  constructor
  · intro h
    cases h with
    | seq hr hs => exact ⟨_, _, hr, hs, rfl⟩
  · rintro ⟨u, v, hr, hs, rfl⟩
    exact .seq hr hs

lemma matches_alt_iff {r s : Regex α} {w : List α} :
    Matches (alt r s) w ↔ Matches r w ∨ Matches s w := by
  constructor
  · intro h
    cases h with
    | altLeft h => exact Or.inl h
    | altRight h => exact Or.inr h
  · rintro (h | h)
    · exact .altLeft h
    · exact .altRight h

lemma matches_any_iff {rs : List (Regex α)} {w : List α} :
    Matches (any rs) w ↔ ∃ r ∈ rs, Matches r w := by
  induction rs with
  | nil => simp [any, matches_empty_iff]
  | cons r rs ih =>
      cases rs with
      | nil => simp [any]
      | cons s rs =>
          have hany : any (r :: s :: rs) = alt r (any (s :: rs)) := rfl
          rw [hany, matches_alt_iff, ih, List.exists_mem_cons_iff (l := s :: rs)]

/-- Induction on the words of `r*`. -/
lemma star_induction {r : Regex α} {P : List α → Prop} (nil : P [])
    (cons : ∀ u v, Matches r u → Matches (star r) v → P v → P (u ++ v)) {w : List α}
    (h : Matches (star r) w) : P w := by
  generalize hx : star r = x at h
  induction h with
  | eps => cases hx
  | cls => cases hx
  | seq => cases hx
  | altLeft => cases hx
  | altRight => cases hx
  | starNil => exact nil
  | starCons hu hv _ ih =>
      cases hx
      exact cons _ _ hu hv (ih rfl)

/-- A nonempty word of `r*` starts with a nonempty word of `r`. -/
lemma matches_star_cons_iff {r : Regex α} {a : α} {w : List α} :
    Matches (star r) (a :: w) ↔ ∃ u v, Matches r (a :: u) ∧ Matches (star r) v ∧ u ++ v = w := by
  constructor
  · intro h
    refine star_induction (P := fun z => a :: w = z →
      ∃ u v, Matches r (a :: u) ∧ Matches (star r) v ∧ u ++ v = w)
      (fun hz => by simp at hz) ?_ h rfl
    intro u v hu hv ih hz
    cases u with
    | nil => exact ih hz
    | cons b u =>
        rw [List.cons_append, List.cons.injEq] at hz
        obtain ⟨rfl, rfl⟩ := hz
        exact ⟨u, v, hu, hv, rfl⟩
  · rintro ⟨u, v, hu, hv, rfl⟩
    exact .starCons hu hv

lemma matches_cls_iff {p : α → Bool} {w : List α} :
    Matches (cls p) w ↔ ∃ c, p c = true ∧ w = [c] := by
  constructor
  · intro h
    cases h with
    | cls h => exact ⟨_, h, rfl⟩
  · rintro ⟨c, h, rfl⟩
    exact .cls h

lemma matches_opt_iff {r : Regex α} {w : List α} : Matches (opt r) w ↔ Matches r w ∨ w = [] := by
  rw [opt, matches_alt_iff, matches_eps_iff]

lemma matches_star_cls_iff {p : α → Bool} {w : List α} :
    Matches (star (cls p)) w ↔ ∀ c ∈ w, p c = true := by
  induction w with
  | nil => exact ⟨fun _ => by simp, fun _ => .starNil⟩
  | cons a w ih =>
      rw [matches_star_cons_iff, List.forall_mem_cons, ← ih]
      constructor
      · rintro ⟨u, v, hu, hv, rfl⟩
        obtain ⟨c, hc, hcu⟩ := matches_cls_iff.1 hu
        obtain ⟨rfl, rfl⟩ := List.cons.inj hcu
        exact ⟨hc, hv⟩
      · rintro ⟨ha, hw⟩
        exact ⟨[], w, .cls ha, hw, rfl⟩

lemma matches_plus_cls_iff {p : α → Bool} {w : List α} :
    Matches (plus (cls p)) w ↔ w ≠ [] ∧ ∀ c ∈ w, p c = true := by
  rw [plus, matches_seq_iff]
  constructor
  · rintro ⟨u, v, hu, hv, rfl⟩
    obtain ⟨c, hc, rfl⟩ := matches_cls_iff.1 hu
    exact ⟨by simp, List.forall_mem_cons.2 ⟨hc, matches_star_cls_iff.1 hv⟩⟩
  · rintro ⟨hne, hw⟩
    obtain ⟨c, w, rfl⟩ := List.exists_cons_of_ne_nil hne
    obtain ⟨hc, hw⟩ := List.forall_mem_cons.1 hw
    exact ⟨[c], w, .cls hc, matches_star_cls_iff.2 hw, rfl⟩

/-- A row of classes. -/
lemma matches_cat_cls_iff {β : Type*} {p : β → α → Bool} {s : List β} {w : List α} :
    Matches (cat (s.map fun d => cls (p d))) w ↔ List.Forall₂ (fun d c => p d c = true) s w := by
  induction s generalizing w with
  | nil => simpa [cat] using matches_eps_iff
  | cons d s ih =>
      have hcons : Matches (cat ((d :: s).map fun d => cls (p d))) w ↔
          Matches (seq (cls (p d)) (cat (s.map fun d => cls (p d)))) w := by
        cases s with
        | nil => simp [cat, matches_seq_iff, matches_eps_iff]
        | cons d' s => rfl
      rw [hcons, matches_seq_iff, List.forall₂_cons_left_iff]
      constructor
      · rintro ⟨u, v, hu, hv, rfl⟩
        obtain ⟨c, hc, rfl⟩ := matches_cls_iff.1 hu
        exact ⟨c, v, hc, ih.1 hv, rfl⟩
      · rintro ⟨c, v, hc, hv, rfl⟩
        exact ⟨[c], v, .cls hc, ih.2 hv, rfl⟩

/-- A word up to the image of its letters. -/
lemma matches_cat_image_iff {β : Type*} [DecidableEq β] {f : α → β} {s w : List α} :
    Matches (cat (s.map fun d => cls fun c => f c == f d)) w ↔ w.map f = s.map f := by
  have heq : w.map f = s.map f ↔ List.Forall₂ (fun d c => f c = f d) s w := by
    rw [← List.forall₂_eq_eq_eq, List.forall₂_map_left_iff, List.forall₂_map_right_iff]
    exact ⟨List.Forall₂.flip, List.Forall₂.flip⟩
  rw [matches_cat_cls_iff, heq]
  simp only [beq_iff_eq]

/-! ### Reading a word letter by letter -/

@[simp] lemma matches_cls_nil {p : α → Bool} : Matches (cls p) [] ↔ False := by
  simp [matches_cls_iff]

@[simp] lemma matches_cls_cons {p : α → Bool} {c : α} {v : List α} :
    Matches (cls p) (c :: v) ↔ p c = true ∧ v = [] := by
  simp only [matches_cls_iff, List.cons.injEq]
  constructor
  · rintro ⟨d, hd, rfl, rfl⟩
    exact ⟨hd, rfl⟩
  · rintro ⟨hc, rfl⟩
    exact ⟨c, hc, rfl, rfl⟩

@[simp] lemma matches_seq_cls_nil {p : α → Bool} {r : Regex α} :
    Matches (seq (cls p) r) [] ↔ False := by
  simp [matches_seq_iff, matches_cls_iff]

@[simp] lemma matches_seq_cls_cons {p : α → Bool} {r : Regex α} {c : α} {v : List α} :
    Matches (seq (cls p) r) (c :: v) ↔ p c = true ∧ Matches r v := by
  simp only [matches_seq_iff, matches_cls_iff]
  constructor
  · rintro ⟨_, u, ⟨d, hd, rfl⟩, hu, heq⟩
    obtain ⟨rfl, rfl⟩ := List.cons.inj heq
    exact ⟨hd, hu⟩
  · rintro ⟨hc, hv⟩
    exact ⟨[c], v, ⟨c, hc, rfl⟩, hv, rfl⟩

@[simp] lemma matches_seq_seq_iff {r s t : Regex α} {w : List α} :
    Matches (seq (seq r s) t) w ↔ Matches (seq r (seq s t)) w := by
  simp only [matches_seq_iff]
  constructor
  · rintro ⟨_, x, ⟨u, v, hu, hv, rfl⟩, hx, rfl⟩
    exact ⟨u, v ++ x, hu, ⟨v, x, hv, hx, rfl⟩, (List.append_assoc _ _ _).symm⟩
  · rintro ⟨u, _, hu, ⟨v, x, hv, hx, rfl⟩, rfl⟩
    exact ⟨u ++ v, x, ⟨u, v, hu, hv, rfl⟩, hx, List.append_assoc _ _ _⟩

@[simp] lemma matches_alt_seq_iff {r s t : Regex α} {w : List α} :
    Matches (seq (alt r s) t) w ↔ Matches (seq r t) w ∨ Matches (seq s t) w := by
  simp only [matches_seq_iff, matches_alt_iff, or_and_right, exists_or]

@[simp] lemma matches_opt_seq_iff {r s : Regex α} {w : List α} :
    Matches (seq (opt r) s) w ↔ Matches (seq r s) w ∨ Matches s w := by
  rw [opt, matches_alt_seq_iff]
  simp [matches_seq_iff, matches_eps_iff]

lemma matches_seq_cls_concat {p : α → Bool} {r : Regex α} {c : α} {v : List α} :
    Matches (seq r (cls p)) (v ++ [c]) ↔ Matches r v ∧ p c = true := by
  simp only [matches_seq_iff, matches_cls_iff]
  constructor
  · rintro ⟨u, _, hu, ⟨d, hd, rfl⟩, heq⟩
    obtain ⟨rfl, hdc⟩ := List.append_inj' heq rfl
    obtain rfl := List.singleton_inj.1 hdc
    exact ⟨hu, hd⟩
  · rintro ⟨hv, hc⟩
    exact ⟨v, [c], hv, ⟨c, hc, rfl⟩, rfl⟩

/-! ### The matcher -/

/-- Whether an expression matches the empty word. -/
def nullable : Regex α → Bool
  | empty => false
  | eps => true
  | cls _ => false
  | seq r s => nullable r && nullable s
  | alt r s => nullable r || nullable s
  | star _ => true

/-- Concatenation, simplified when the first part is `empty` or `eps`. -/
def mkSeq : Regex α → Regex α → Regex α
  | empty, _ => empty
  | eps, s => s
  | r, s => seq r s

/-- Choice, simplified when one side is `empty`. -/
def mkAlt : Regex α → Regex α → Regex α
  | empty, s => s
  | r, empty => r
  | r, s => alt r s

/-- The derivative of an expression by a letter. -/
def deriv (a : α) : Regex α → Regex α
  | empty => empty
  | eps => empty
  | cls p => if p a then eps else empty
  | seq r s =>
      if nullable r then mkAlt (mkSeq (deriv a r) s) (deriv a s) else mkSeq (deriv a r) s
  | alt r s => mkAlt (deriv a r) (deriv a s)
  | star r => mkSeq (deriv a r) (star r)

/-- Whether an expression matches a word. -/
def accepts : Regex α → List α → Bool
  | r, [] => nullable r
  | r, a :: w => accepts (deriv a r) w

lemma nullable_iff (r : Regex α) : nullable r = true ↔ Matches r [] := by
  induction r with
  | empty => simp [nullable, matches_empty_iff]
  | eps => simp [nullable, matches_eps_iff]
  | cls p =>
      simp only [nullable, Bool.false_eq_true, false_iff]
      intro h
      cases h
  | seq r s ihr ihs =>
      rw [nullable, Bool.and_eq_true, ihr, ihs, matches_seq_iff]
      constructor
      · rintro ⟨hr, hs⟩
        exact ⟨[], [], hr, hs, rfl⟩
      · rintro ⟨u, v, hr, hs, huv⟩
        obtain ⟨rfl, rfl⟩ := List.append_eq_nil_iff.1 huv
        exact ⟨hr, hs⟩
  | alt r s ihr ihs => rw [nullable, Bool.or_eq_true, ihr, ihs, matches_alt_iff]
  | star r _ => simp [nullable, Matches.starNil]

lemma matches_mkSeq_iff {r s : Regex α} {w : List α} :
    Matches (mkSeq r s) w ↔ Matches (seq r s) w := by
  cases r with
  | empty => simp [mkSeq, matches_seq_iff, matches_empty_iff]
  | eps => simp [mkSeq, matches_seq_iff, matches_eps_iff]
  | _ => rfl

lemma matches_mkAlt_iff {r s : Regex α} {w : List α} :
    Matches (mkAlt r s) w ↔ Matches (alt r s) w := by
  rw [matches_alt_iff]
  fun_cases mkAlt r s
  · simp [matches_empty_iff]
  · simp [matches_empty_iff]
  · exact matches_alt_iff

lemma matches_deriv_iff (a : α) (r : Regex α) (w : List α) :
    Matches (deriv a r) w ↔ Matches r (a :: w) := by
  induction r generalizing w with
  | empty => simp [deriv, matches_empty_iff]
  | eps => simp [deriv, matches_empty_iff, matches_eps_iff]
  | cls p =>
      rw [deriv]
      split
      · rename_i hp
        rw [matches_eps_iff]
        constructor
        · rintro rfl
          exact .cls hp
        · intro h
          cases h
          rfl
      · rename_i hp
        rw [matches_empty_iff, false_iff]
        intro h
        cases h with
        | cls h => exact hp h
  | seq r s ihr ihs =>
      have hleft : Matches (seq (deriv a r) s) w ↔
          ∃ u v, Matches r (a :: u) ∧ Matches s v ∧ u ++ v = w := by
        simp only [matches_seq_iff, ihr]
      -- either `r` takes the letter, or `r` matches the empty word and `s` takes it
      have hsplit : Matches (seq r s) (a :: w) ↔
          (∃ u v, Matches r (a :: u) ∧ Matches s v ∧ u ++ v = w) ∨
            (Matches r [] ∧ Matches s (a :: w)) := by
        rw [matches_seq_iff]
        constructor
        · rintro ⟨u, v, hr, hs, huv⟩
          cases u with
          | nil => exact Or.inr ⟨hr, by rwa [← huv]⟩
          | cons b u =>
              rw [List.cons_append, List.cons.injEq] at huv
              obtain ⟨rfl, rfl⟩ := huv
              exact Or.inl ⟨u, v, hr, hs, rfl⟩
        · rintro (⟨u, v, hr, hs, rfl⟩ | ⟨hr, hs⟩)
          · exact ⟨a :: u, v, hr, hs, rfl⟩
          · exact ⟨[], a :: w, hr, hs, rfl⟩
      rw [deriv, hsplit]
      split
      · rename_i hn
        rw [matches_mkAlt_iff, matches_alt_iff, matches_mkSeq_iff, hleft, ihs]
        simp [(nullable_iff r).1 hn]
      · rename_i hn
        rw [matches_mkSeq_iff, hleft]
        simp [mt (nullable_iff r).2 hn]
  | alt r s ihr ihs => rw [deriv, matches_mkAlt_iff, matches_alt_iff, ihr, ihs, matches_alt_iff]
  | star r ihr =>
      rw [deriv, matches_mkSeq_iff, matches_seq_iff, matches_star_cons_iff]
      simp only [ihr]

/-- The matcher decides `Matches`. -/
theorem accepts_iff (r : Regex α) (w : List α) : accepts r w = true ↔ Matches r w := by
  induction w generalizing r with
  | nil => exact nullable_iff r
  | cons a w ih => rw [accepts, ih, matches_deriv_iff]

lemma accepts_eq_false_iff {r : Regex α} {w : List α} : accepts r w = false ↔ ¬Matches r w := by
  rw [← accepts_iff, Bool.not_eq_true]

/-! ### Beginnings of words -/

/-- Whether a matched word can begin with a letter. -/
def first : Regex α → α → Bool
  | empty, _ => false
  | eps, _ => false
  | cls p, a => p a
  | seq r s, a => first r a || nullable r && first s a
  | alt r s, a => first r a || first s a
  | star r, a => first r a

lemma first_of_matches {r : Regex α} {a : α} {w : List α} (h : Matches r (a :: w)) :
    first r a = true := by
  induction r generalizing w with
  | empty => exact (matches_empty_iff.1 h).elim
  | eps => exact absurd (matches_eps_iff.1 h) (by simp)
  | cls p =>
      cases h with
      | cls h => exact h
  | seq r s ihr ihs =>
      obtain ⟨u, v, hu, hv, huv⟩ := matches_seq_iff.1 h
      rw [first, Bool.or_eq_true, Bool.and_eq_true, nullable_iff]
      cases u with
      | nil =>
          rw [List.nil_append] at huv
          exact Or.inr ⟨hu, ihs (huv ▸ hv)⟩
      | cons b u =>
          rw [List.cons_append, List.cons.injEq] at huv
          exact Or.inl (ihr (huv.1 ▸ hu))
  | alt r s ihr ihs =>
      rw [first, Bool.or_eq_true]
      exact (matches_alt_iff.1 h).imp ihr ihs
  | star r ih =>
      obtain ⟨u, v, hu, -⟩ := matches_star_cons_iff.1 h
      exact ih hu

/-- The derivative of an expression by a word. -/
def derivs (r : Regex α) (u : List α) : Regex α := u.foldl (fun r a => deriv a r) r

lemma matches_derivs_iff {r : Regex α} {u w : List α} :
    Matches (derivs r u) w ↔ Matches r (u ++ w) := by
  induction u generalizing r with
  | nil => rfl
  | cons a u ih =>
      rw [List.cons_append, ← matches_deriv_iff, ← ih]
      rfl

/-- No matched word begins with `u` and a letter that cannot follow it. -/
lemma not_matches_of_first {r : Regex α} {u w : List α} {a : α} (h : first (derivs r u) a = false) :
    ¬Matches r (u ++ a :: w) := by
  intro hmatch
  rw [first_of_matches (matches_derivs_iff.2 hmatch)] at h
  exact absurd h (by simp)

lemma length_le_of_first {r : Regex α} {u v w : List α} {a : α} (hv : v <+: u ++ a :: w)
    (hmatch : Matches r v) (h : first (derivs r u) a = false) : v.length ≤ u.length := by
  by_contra hlt
  rw [← List.singleton_append, ← List.append_assoc] at hv
  have hua : u ++ [a] <+: v :=
    List.prefix_of_prefix_length_le (List.prefix_append _ w) hv (by simpa using by omega)
  obtain ⟨t, rfl⟩ := hua
  rw [List.append_assoc, List.singleton_append] at hmatch
  exact not_matches_of_first h hmatch

/-! ### Properties read off the classes -/

/-- Every class of an expression has the property `P`. -/
def AllCls (P : (α → Bool) → Prop) : Regex α → Prop
  | empty => True
  | eps => True
  | cls p => P p
  | seq r s => AllCls P r ∧ AllCls P s
  | alt r s => AllCls P r ∧ AllCls P s
  | star r => AllCls P r

variable {P Q : (α → Bool) → Prop}

instance AllCls.decidable [DecidablePred P] : (r : Regex α) → Decidable (AllCls P r)
  | empty => .isTrue trivial
  | eps => .isTrue trivial
  | cls p => inferInstanceAs (Decidable (P p))
  | seq r s =>
      haveI := AllCls.decidable r
      haveI := AllCls.decidable s
      inferInstanceAs (Decidable (_ ∧ _))
  | alt r s =>
      haveI := AllCls.decidable r
      haveI := AllCls.decidable s
      inferInstanceAs (Decidable (_ ∧ _))
  | star r => AllCls.decidable r

lemma AllCls.mono (hPQ : ∀ p, P p → Q p) {r : Regex α} (h : AllCls P r) : AllCls Q r := by
  induction r with
  | empty => trivial
  | eps => trivial
  | cls p => exact hPQ p h
  | seq r s ihr ihs => exact ⟨ihr h.1, ihs h.2⟩
  | alt r s ihr ihs => exact ⟨ihr h.1, ihs h.2⟩
  | star r ih => exact ih h

lemma allCls_cat {rs : List (Regex α)} (h : ∀ r ∈ rs, AllCls P r) : AllCls P (cat rs) := by
  induction rs with
  | nil => trivial
  | cons r rs ih =>
      cases rs with
      | nil => exact h r (by simp)
      | cons r' rs => exact ⟨h r (by simp), ih fun x hx => h x (List.mem_cons_of_mem _ hx)⟩

lemma allCls_opt {r : Regex α} (h : AllCls P r) : AllCls P (opt r) := ⟨h, trivial⟩

lemma allCls_rep {r : Regex α} (h : AllCls P r) (n : ℕ) : AllCls P (rep r n) := by
  induction n with
  | zero => trivial
  | succ n ih => exact ⟨h, ih⟩

lemma allCls_upTo {r : Regex α} (h : AllCls P r) (n : ℕ) : AllCls P (upTo r n) := by
  induction n with
  | zero => trivial
  | succ n ih => exact ⟨⟨h, ih⟩, trivial⟩

/-- The letters of a matched word have every property that the letters of the classes have. -/
theorem Matches.forall_mem {q : α → Prop} {r : Regex α} {w : List α} (h : Matches r w)
    (hr : AllCls (fun p => ∀ c, p c = true → q c) r) : ∀ c ∈ w, q c := by
  induction h with
  | eps => simp
  | cls h =>
      intro c hc
      rw [List.mem_singleton.1 hc]
      exact hr _ h
  | seq _ _ ih1 ih2 =>
      intro c hc
      exact (List.mem_append.1 hc).elim (ih1 hr.1 c) (ih2 hr.2 c)
  | altLeft _ ih => exact ih hr.1
  | altRight _ ih => exact ih hr.2
  | starNil => simp
  | starCons _ _ ih1 ih2 =>
      intro c hc
      exact (List.mem_append.1 hc).elim (ih1 hr c) (ih2 hr c)

lemma Matches.notMem {d : α} {r : Regex α} {w : List α} (h : Matches r w)
    (hr : AllCls (fun p => p d = false) r) : d ∉ w := by
  intro hmem
  refine h.forall_mem (q := (· ≠ d)) (hr.mono fun p hp c hc => ?_) d hmem rfl
  rintro rfl
  rw [hp] at hc
  exact absurd hc (by simp)

/-- The matched words are closed under a relation of letters that keeps every class. -/
theorem Matches.forall₂ {R : α → α → Prop} {r : Regex α} {w w' : List α} (h : Matches r w)
    (hr : AllCls (fun p => ∀ c d, R c d → p c = true → p d = true) r)
    (hw : List.Forall₂ R w w') : Matches r w' := by
  induction h generalizing w' with
  | eps =>
      cases hw
      exact .eps
  | cls h =>
      cases hw with
      | cons hcd hnil =>
          cases hnil
          exact .cls (hr _ _ hcd h)
  | @seq r s v w _ _ ih1 ih2 =>
      have h1 := ih1 hr.1 (List.forall₂_take_append w' v w hw.flip).flip
      have h2 := ih2 hr.2 (List.forall₂_drop_append w' v w hw.flip).flip
      have := h1.seq h2
      rwa [List.take_append_drop] at this
  | altLeft _ ih => exact .altLeft (ih hr.1 hw)
  | altRight _ ih => exact .altRight (ih hr.2 hw)
  | starNil =>
      cases hw
      exact .starNil
  | @starCons r v w _ _ ih1 ih2 =>
      have h1 := ih1 hr (List.forall₂_take_append w' v w hw.flip).flip
      have h2 := ih2 hr (List.forall₂_drop_append w' v w hw.flip).flip
      have := h1.starCons h2
      rwa [List.take_append_drop] at this

/-! ### Letters that every word has, and last letters -/

/-- Every matched word goes through a class with the property `P`. -/
def SomeCls (P : (α → Bool) → Prop) : Regex α → Prop
  | empty => True
  | eps => False
  | cls p => P p
  | seq r s => SomeCls P r ∨ SomeCls P s
  | alt r s => SomeCls P r ∧ SomeCls P s
  | star _ => False

/-- Every class that a matched word can end with has the property `P`. -/
def LastCls (P : (α → Bool) → Prop) : Regex α → Prop
  | empty => True
  | eps => True
  | cls p => P p
  | seq r s => LastCls P s ∧ (nullable s = true → LastCls P r)
  | alt r s => LastCls P r ∧ LastCls P s
  | star r => LastCls P r

lemma Matches.exists_mem {q : α → Prop} {r : Regex α} {w : List α} (h : Matches r w)
    (hr : SomeCls (fun p => ∀ c, p c = true → q c) r) : ∃ c ∈ w, q c := by
  induction h with
  | eps => exact hr.elim
  | cls h => exact ⟨_, List.mem_singleton_self _, hr _ h⟩
  | seq _ _ ih1 ih2 =>
      rcases hr with hr | hr
      · obtain ⟨c, hc, hq⟩ := ih1 hr
        exact ⟨c, List.mem_append_left _ hc, hq⟩
      · obtain ⟨c, hc, hq⟩ := ih2 hr
        exact ⟨c, List.mem_append_right _ hc, hq⟩
  | altLeft _ ih => exact ih hr.1
  | altRight _ ih => exact ih hr.2
  | starNil => exact hr.elim
  | starCons => exact hr.elim

lemma Matches.getLast? {q : α → Prop} {r : Regex α} {w : List α} (h : Matches r w)
    (hr : LastCls (fun p => ∀ c, p c = true → q c) r) : ∀ c ∈ w.getLast?, q c := by
  induction h with
  | eps => simp
  | cls h =>
      intro c hc
      rw [List.getLast?_singleton, Option.mem_some_iff] at hc
      exact hc ▸ hr _ h
  | @seq r s v w _ hs ih1 ih2 =>
      intro c hc
      by_cases hw : w = []
      · -- the word ends where the first part ends
        subst hw
        rw [List.append_nil] at hc
        exact ih1 (hr.2 ((nullable_iff s).2 hs)) c hc
      · rw [List.getLast?_append_of_ne_nil v hw] at hc
        exact ih2 hr.1 c hc
  | altLeft _ ih => exact ih hr.1
  | altRight _ ih => exact ih hr.2
  | starNil => simp
  | @starCons r v w _ _ ih1 ih2 =>
      intro c hc
      by_cases hw : w = []
      · subst hw
        rw [List.append_nil] at hc
        exact ih1 hr c hc
      · rw [List.getLast?_append_of_ne_nil v hw] at hc
        exact ih2 hr c hc

/-! ### Expressions with a place for another one -/

/-- `C` has one place for an expression, at the end of what it matches, and the words that can
stand before the place are those of `r`. -/
def Before (C : Regex α → Regex α) (r : Regex α) : Prop :=
  ∀ q w, Matches (C q) w ↔ Matches (C empty) w ∨ Matches (seq r q) w

lemma matches_seq_alt_iff {r s t : Regex α} {w : List α} :
    Matches (seq r (alt s t)) w ↔ Matches (seq r s) w ∨ Matches (seq r t) w := by
  simp only [matches_seq_iff, matches_alt_iff, or_and_right, and_or_left, exists_or]

lemma before_seq_alt (r s : Regex α) : Before (fun q => seq r (alt s q)) r := by
  intro q w
  have hempty : ¬Matches (seq r empty) w := by simp [matches_seq_iff, matches_empty_iff]
  rw [matches_seq_alt_iff, matches_seq_alt_iff, or_iff_left hempty]

lemma Before.seq {C : Regex α → Regex α} {s : Regex α} (r : Regex α) (h : Before C s) :
    Before (fun q => seq r (C q)) (seq r s) := by
  intro q w
  have hsplit : Matches (Regex.seq r (C q)) w ↔
      Matches (Regex.seq r (Regex.alt (C empty) (Regex.seq s q))) w := by
    simp only [matches_seq_iff, matches_alt_iff, h q]
  rw [hsplit, matches_seq_alt_iff, matches_seq_seq_iff]

lemma Before.alt {C D : Regex α → Regex α} {r s : Regex α} (hC : Before C r) (hD : Before D s) :
    Before (fun q => alt (C q) (D q)) (alt r s) := by
  intro q w
  rw [matches_alt_iff, hC q w, hD q w, matches_alt_iff, matches_alt_seq_iff]
  exact or_or_or_comm

lemma Before.alt_const {C : Regex α → Regex α} {r : Regex α} (hC : Before C r) (s : Regex α) :
    Before (fun q => Regex.alt (C q) s) r := by
  intro q w
  rw [matches_alt_iff, hC q w, matches_alt_iff, or_right_comm]

end Regex

end Lib
