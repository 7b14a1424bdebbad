import Mathlib.Algebra.BigOperators.Group.List.Basic
import Mathlib.Algebra.Order.Monoid.Defs

/-!
# Machines and their runs

A machine answers an input in a state, or does not go on.  Properties of whole runs are derived
from properties of one step by the rules `Run.invariant`, `Run.refinement`, `Run.conservation`,
`Run.budget`, `Run.log_eq` and `Run.length_add_le`, and from those of one step of two machines by
`runs_rel`; `foldlM_invariant` and `whileM_total` are the rules for a loop inside a step.
-/

namespace Lib

/-- Computations that are related before and after a step. -/
lemma rel_bind {α α' β β' : Type*} {R : α → α' → Prop} {S : β → β' → Prop} {x : Option α}
    {y : Option α'} {f : α → Option β} {g : α' → Option β'} (h : Option.Rel R x y)
    (hfg : ∀ a b, R a b → Option.Rel S (f a) (g b)) : Option.Rel S (x.bind f) (y.bind g) := by
  cases h with
  | none => exact .none
  | some hab => exact hfg _ _ hab

lemma rel_mono {α α' : Type*} {R S : α → α' → Prop} {x : Option α} {y : Option α'}
    (h : Option.Rel R x y) (hRS : ∀ a b, R a b → S a b) : Option.Rel S x y := by
  cases h with
  | none => exact .none
  | some hab => exact .some (hRS _ _ hab)

lemma rel_map {α α' β β' : Type*} {R : α → α' → Prop} {S : β → β' → Prop} {x : Option α}
    {y : Option α'} {f : α → β} {g : α' → β'} (h : Option.Rel R x y)
    (hfg : ∀ a b, R a b → S (f a) (g b)) : Option.Rel S (x.map f) (y.map g) := by
  cases h with
  | none => exact .none
  | some hab => exact .some (hfg _ _ hab)

/-- A machine with states `σ`, inputs `ι` and answers `ω`. -/
structure Machine (σ ι ω : Type) where
  /-- The answer to an input and the next state; `none` when the machine does not go on. -/
  exec : σ → ι → Option (ω × σ)

namespace Machine

variable {σ ι ω : Type} {M : Machine σ ι ω} {G : σ → ι → Prop} {s t u : σ} {l : List (ι × ω)}

/-- The runs of a machine in which every input meets the guard `G` in the state it is given in;
the list is the inputs with their answers. -/
inductive Run (M : Machine σ ι ω) (G : σ → ι → Prop) : σ → List (ι × ω) → σ → Prop
  | nil (s : σ) : Run M G s [] s
  | cons {s t u : σ} {i : ι} {o : ω} {l : List (ι × ω)} :
      G s i → M.exec s i = some (o, t) → Run M G t l u → Run M G s ((i, o) :: l) u

/-- The guard that lets every input pass. -/
def Free (_ : σ) (_ : ι) : Prop := True

/-- A weaker guard has more runs. -/
lemma Run.mono {G' : σ → ι → Prop} (hG : ∀ s i, G s i → G' s i) (h : Run M G s l t) :
    Run M G' s l t := by
  induction h with
  | nil s => exact .nil s
  | cons hg hexec _ ih => exact .cons (hG _ _ hg) hexec ih

lemma Run.append {l' : List (ι × ω)} (h : Run M G s l t) (h' : Run M G t l' u) :
    Run M G s (l ++ l') u := by
  induction h with
  | nil s => exact h'
  | cons hg hexec _ ih => exact .cons hg hexec (ih h')

/-- A guard may be replaced by one that it implies where an invariant holds. -/
theorem Run.strengthen {G' : σ → ι → Prop} {I : σ → Prop}
    (hstep : ∀ s i o t, I s → G s i → M.exec s i = some (o, t) → I t)
    (hG : ∀ s i, I s → G s i → G' s i) (h : Run M G s l t) (hs : I s) : Run M G' s l t := by
  induction h with
  | nil s => exact .nil s
  | cons hg hexec _ ih => exact .cons (hG _ _ hs hg) hexec (ih (hstep _ _ _ _ hs hg hexec))

/-- The runs of a guard are those in which every step has a property, if the two agree at every step
from a state in which an invariant holds. -/
theorem Run.forall_iff {G' : σ → ι → Prop} {I : σ → Prop} {P : ι × ω → Prop}
    (hstep : ∀ s i o t, I s → G s i → M.exec s i = some (o, t) → I t ∧ (P (i, o) ↔ G' s i))
    (h : Run M G s l t) (hs : I s) : (∀ p ∈ l, P p) ↔ Run M G' s l t := by
  induction h with
  | nil s => exact ⟨fun _ => .nil s, fun _ => by simp⟩
  | @cons s t u i o l hg hexec _ ih =>
      obtain ⟨ht, hiff⟩ := hstep s i o t hs hg hexec
      rw [List.forall_mem_cons, ih ht]
      constructor
      · rintro ⟨hP, hrun⟩
        exact .cons (hiff.1 hP) hexec hrun
      · intro hrun
        cases hrun with
        | cons hg' hexec' hrest =>
            obtain ⟨-, rfl⟩ := Prod.mk.inj (Option.some.inj (hexec.symm.trans hexec'))
            exact ⟨hiff.2 hg', hrest⟩

/-- A property that every step keeps holds after every run. -/
theorem Run.invariant {I : σ → Prop}
    (hstep : ∀ s i o t, I s → G s i → M.exec s i = some (o, t) → I t) (h : Run M G s l t)
    (hs : I s) : I t := by
  induction h with
  | nil s => exact hs
  | cons hg hexec _ ih => exact ih (hstep _ _ _ _ hs hg hexec)

/-- If every step keeps a relation to the states of an abstract machine, whose next state is
computed from the input and its answer, then so does every run. -/
theorem Run.refinement {τ : Type*} {R : σ → τ → Prop} (f : τ → ι × ω → τ)
    (hstep : ∀ s i o t a, R s a → G s i → M.exec s i = some (o, t) → R t (f a (i, o)))
    (h : Run M G s l t) {a : τ} (hs : R s a) : R t (l.foldl f a) := by
  induction h generalizing a with
  | nil s => exact hs
  | cons hg hexec _ ih => exact ih (hstep _ _ _ _ _ hs hg hexec)

/-- If every step uses up some of a measure, then a run is no longer than the measure. -/
theorem Run.length_add_le {I : σ → Prop} {μ : σ → ℕ}
    (hstep : ∀ s i o t, I s → G s i → M.exec s i = some (o, t) → I t ∧ μ t < μ s)
    (h : Run M G s l t) (hs : I s) : l.length + μ t ≤ μ s := by
  induction h with
  | nil s => simp
  | cons hg hexec _ ih =>
      obtain ⟨ht, hlt⟩ := hstep _ _ _ _ hs hg hexec
      have hrest := ih ht
      rw [List.length_cons]
      omega

/-- If every step adds its part to a log, then a run adds the parts of its steps in order. -/
theorem Run.log_eq {α : Type*} {I : σ → Prop} (log : σ → List α) (part : ι × ω → List α)
    (hstep : ∀ s i o t, I s → G s i → M.exec s i = some (o, t) →
      I t ∧ log t = log s ++ part (i, o))
    (h : Run M G s l t) (hs : I s) : log t = log s ++ l.flatMap part := by
  induction h with
  | nil s => simp
  | cons hg hexec _ ih =>
      obtain ⟨ht, hlog⟩ := hstep _ _ _ _ hs hg hexec
      rw [ih ht, hlog, List.flatMap_cons, List.append_assoc]

/-- If every step keeps the balance of a quantity, then so does every run. -/
theorem Run.conservation {A : Type*} [AddCommMonoid A] (m : σ → A) (inn out : ι × ω → A)
    (hstep : ∀ s i o t, G s i → M.exec s i = some (o, t) →
      m s + inn (i, o) = out (i, o) + m t)
    (h : Run M G s l t) : m s + (l.map inn).sum = (l.map out).sum + m t := by
  induction h with
  | nil s => simp
  | @cons s t u i o l hg hexec _ ih =>
      rw [List.map_cons, List.sum_cons, List.map_cons, List.sum_cons]
      calc m s + (inn (i, o) + (l.map inn).sum)
          = out (i, o) + (m t + (l.map inn).sum) := by
            rw [← add_assoc, hstep s i o t hg hexec, add_assoc]
        _ = out (i, o) + (l.map out).sum + m u := by rw [ih, add_assoc]

/-- If no step uses up more of a quantity than it has and brings in, then neither does a run. -/
theorem Run.budget {A : Type*} [AddCommMonoid A] [PartialOrder A] [IsOrderedAddMonoid A]
    {I : σ → Prop} (m : σ → A) (inn out : ι × ω → A)
    (hstep : ∀ s i o t, I s → G s i → M.exec s i = some (o, t) →
      I t ∧ out (i, o) + m t ≤ m s + inn (i, o))
    (h : Run M G s l t) (hs : I s) : (l.map out).sum + m t ≤ m s + (l.map inn).sum := by
  induction h with
  | nil s => simp
  | @cons s t u i o l hg hexec _ ih =>
      obtain ⟨ht, hle⟩ := hstep s i o t hs hg hexec
      rw [List.map_cons, List.sum_cons, List.map_cons, List.sum_cons]
      calc out (i, o) + (l.map out).sum + m u
          = out (i, o) + ((l.map out).sum + m u) := add_assoc ..
        _ ≤ out (i, o) + (m t + (l.map inn).sum) := add_le_add_right (ih ht) _
        _ = out (i, o) + m t + (l.map inn).sum := (add_assoc ..).symm
        _ ≤ m s + inn (i, o) + (l.map inn).sum := add_le_add_left hle _
        _ = m s + (inn (i, o) + (l.map inn).sum) := add_assoc ..

/-- The run on a list of inputs. -/
def runs (M : Machine σ ι ω) (s : σ) : List ι → Option (List (ι × ω) × σ)
  | [] => some ([], s)
  | i :: is => do
      let (o, t) ← M.exec s i
      let (l, u) ← M.runs t is
      some ((i, o) :: l, u)

/-- If two machines give the same answers in related states and come to related states, or neither
goes on, then so it is with whole runs. -/
theorem runs_rel {τ : Type} {N : Machine τ ι ω} {R : σ → τ → Prop}
    (hstep : ∀ s a i, R s a →
      Option.Rel (fun x y => x.1 = y.1 ∧ R x.2 y.2) (M.exec s i) (N.exec a i))
    (is : List ι) {a : τ} (hs : R s a) :
    Option.Rel (fun x y => x.1 = y.1 ∧ R x.2 y.2) (M.runs s is) (N.runs a is) := by
  induction is generalizing s a with
  | nil => exact .some ⟨rfl, hs⟩
  | cons i is ih =>
      refine rel_bind (hstep s a i hs) fun x y hxy => rel_bind (ih hxy.2) fun x' y' hxy' => ?_
      have hlog : (i, x.1) :: x'.1 = (i, y.1) :: y'.1 := by rw [hxy.1, hxy'.1]
      exact .some ⟨hlog, hxy'.2⟩

lemma run_of_runs {is : List ι} (hG : ∀ i ∈ is, ∀ s, G s i) (h : M.runs s is = some (l, u)) :
    Run M G s l u := by
  induction is generalizing s l with
  | nil =>
      obtain ⟨rfl, rfl⟩ := Prod.mk.inj (Option.some.inj h)
      exact .nil s
  | cons i is ih =>
      simp only [runs, Option.bind_eq_bind, Option.bind_eq_some_iff] at h
      obtain ⟨⟨o, t⟩, hexec, ⟨l', u'⟩, hrest, h⟩ := h
      obtain ⟨rfl, rfl⟩ := Prod.mk.inj (Option.some.inj h)
      exact .cons (hG i (by simp) s) hexec (ih (fun j hj => hG j (List.mem_cons_of_mem i hj)) hrest)

/-- A run that is computed and meets a test. -/
theorem exists_run_of_any (is : List ι) {p : List (ι × ω) × σ → Bool}
    (hG : ∀ i ∈ is, ∀ s, G s i) (h : (M.runs s is).any p = true) :
    ∃ l u, Run M G s l u ∧ p (l, u) = true := by
  cases hr : M.runs s is with
  | none =>
      rw [hr] at h
      exact absurd h (by simp)
  | some x =>
      rw [hr] at h
      exact ⟨x.1, x.2, run_of_runs hG hr, h⟩

/-- The machine that does not go on at an input outside the guard. -/
def guard (M : Machine σ ι ω) (G : σ → ι → Prop) [∀ s i, Decidable (G s i)] : Machine σ ι ω where
  exec s i := if G s i then M.exec s i else none

lemma run_of_guard [∀ s i, Decidable (G s i)] {G' : σ → ι → Prop}
    (h : Run (M.guard G) G' s l t) : Run M G s l t := by
  induction h with
  | nil s => exact .nil s
  | cons _ hexec _ ih =>
      simp only [guard] at hexec
      split at hexec
      · next hg => exact .cons hg hexec ih
      · exact absurd hexec (by simp)

end Machine

/-- The invariant rule of a loop over a list whose body can fail; the invariant speaks of the
elements that are left. -/
theorem foldlM_invariant {α σ ε : Type} {f : σ → α → Except ε σ} {I : List α → σ → Prop}
    (hbody : ∀ a l s s', I (a :: l) s → f s a = .ok s' → I l s') {l : List α} {s s' : σ}
    (h : l.foldlM f s = .ok s') (hs : I l s) : I [] s' := by
  induction l generalizing s with
  | nil =>
      rw [List.foldlM_nil] at h
      rwa [← Except.ok.inj h]
  | cons a l ih =>
      rw [List.foldlM_cons] at h
      cases hf : f s a with
      | error e =>
          rw [hf] at h
          exact absurd h (by simp [bind, Except.bind])
      | ok t =>
          rw [hf] at h
          exact ih h (hbody a l s t hs hf)

/-- The loop `while(cond) body` with at most as many turns as the number says; `none` when the body
fails or there are more turns. -/
def whileM {σ : Type} (cond : σ → Bool) (body : σ → Option σ) : ℕ → σ → Option σ
  | 0, s => if cond s then none else some s
  | n + 1, s => if cond s then (body s).bind (whileM cond body n) else some s

lemma whileM_of_not {σ : Type} {cond : σ → Bool} {s : σ} (h : cond s = false)
    (body : σ → Option σ) (n : ℕ) : whileM cond body n s = some s := by
  cases n <;> simp [whileM, h]

/-- Total correctness of a loop: the number in the invariant bounds the turns that are left. -/
theorem whileM_total {σ : Type} {cond : σ → Bool} {body : σ → Option σ} {I : ℕ → σ → Prop}
    (hbody : ∀ m s, I m s → cond s = true → ∃ k t, k < m ∧ body s = some t ∧ I k t)
    {m n : ℕ} {s : σ} (hs : I m s) (hmn : m ≤ n) :
    ∃ k t, whileM cond body n s = some t ∧ I k t ∧ cond t = false := by
  induction n generalizing m s with
  | zero =>
      cases hc : cond s with
      | true =>
          obtain ⟨k, -, hk, -⟩ := hbody m s hs hc
          omega
      | false => exact ⟨m, s, whileM_of_not hc body _, hs, hc⟩
  | succ n ih =>
      cases hc : cond s with
      | true =>
          obtain ⟨k, t, hk, hb, ht⟩ := hbody m s hs hc
          obtain ⟨k', u, hrun, hu⟩ := ih ht (by omega)
          exact ⟨k', u, by rw [whileM, if_pos hc, hb]; exact hrun, hu⟩
      | false => exact ⟨m, s, whileM_of_not hc body _, hs, hc⟩

end Lib
