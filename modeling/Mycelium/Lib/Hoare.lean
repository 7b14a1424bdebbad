import Mathlib.Logic.Basic

/-!
# Pre- and postconditions of programs with exceptions

Programs that change a state, throw exceptions and may wait for ever.  A triple has one
postcondition for the value that a program returns and one for what it throws, both with the state
that it leaves.  A program that does not end satisfies every triple.
-/

namespace Lib

/-- A program: `none` when it does not end, otherwise a value or an exception, and a state. -/
abbrev Prog (ε σ α : Type) := ExceptT ε (StateT σ Option) α

namespace Prog

variable {ε ε' σ α β : Type}

/-- A program that does not end. -/
def hang : Prog ε σ α := fun _ => none

/-- A step that neither fails nor waits. -/
def step (f : σ → α × σ) : Prog ε σ α := fun s => some (.ok (f s).1, (f s).2)

/-- A program whose exceptions are passed on in another form. -/
def rethrow (f : ε → ε') (x : Prog ε σ α) : Prog ε' σ α := ExceptT.adapt f x

lemma bind_ok {x : Prog ε σ α} {f : α → Prog ε σ β} {s t : σ} {a : α} (h : x s = some (.ok a, t)) :
    (x >>= f) s = f a t := by
  change (x s).bind (fun r => ExceptT.bindCont f r.1 r.2) = f a t
  rw [h]
  rfl

lemma bind_error {x : Prog ε σ α} {f : α → Prog ε σ β} {s t : σ} {e : ε}
    (h : x s = some (.error e, t)) : (x >>= f) s = some (.error e, t) := by
  change (x s).bind (fun r => ExceptT.bindCont f r.1 r.2) = some (.error e, t)
  rw [h]
  rfl

lemma bind_none {x : Prog ε σ α} {f : α → Prog ε σ β} {s : σ} (h : x s = none) :
    (x >>= f) s = none := by
  change (x s).bind (fun r => ExceptT.bindCont f r.1 r.2) = none
  rw [h]
  rfl

lemma rethrow_apply (f : ε → ε') (x : Prog ε σ α) (s : σ) :
    rethrow f x s = (x s).map fun r => (r.1.mapError f, r.2) := by
  change (x s).bind _ = _
  cases x s <;> rfl

/-- From a state with `P`, what the program returns satisfies `Q`, and what it throws satisfies
`E`. -/
def Triple (P : σ → Prop) (x : Prog ε σ α) (Q : α → σ → Prop) (E : ε → σ → Prop) : Prop :=
  ∀ s t, P s → (∀ a, x s = some (.ok a, t) → Q a t) ∧ ∀ e, x s = some (.error e, t) → E e t

variable {P P' : σ → Prop} {Q Q' R : α → σ → Prop} {E E' : ε → σ → Prop} {x : Prog ε σ α}

/-- The two postconditions at a value that is returned. -/
lemma post_ok {a : α} {s t : σ} (h : Q a s) :
    (∀ b, (some (.ok a, s) : Option (Except ε α × σ)) = some (.ok b, t) → Q b t) ∧
      ∀ e, (some (.ok a, s) : Option (Except ε α × σ)) = some (.error e, t) → E e t := by
  simp only [Option.some.injEq, Prod.mk.injEq, Except.ok.injEq, reduceCtorEq, false_and,
    false_implies, implies_true, and_true]
  rintro _ ⟨rfl, rfl⟩
  exact h

/-- The two postconditions at an exception. -/
lemma post_error {e : ε} {s t : σ} (h : E e s) :
    (∀ b, (some (.error e, s) : Option (Except ε α × σ)) = some (.ok b, t) → Q b t) ∧
      ∀ e', (some (.error e, s) : Option (Except ε α × σ)) = some (.error e', t) → E e' t := by
  simp only [Option.some.injEq, Prod.mk.injEq, Except.error.injEq, reduceCtorEq, false_and,
    false_implies, implies_true, true_and]
  rintro _ ⟨rfl, rfl⟩
  exact h

namespace Triple

lemma pure {a : α} (h : ∀ s, P s → Q a s) : Triple P (Pure.pure a : Prog ε σ α) Q E :=
  fun s _ hs => post_ok (h s hs)

lemma throw {e : ε} (h : ∀ s, P s → E e s) : Triple P (MonadExcept.throw e : Prog ε σ α) Q E :=
  fun s _ hs => post_error (h s hs)

lemma step {f : σ → α × σ} (h : ∀ s, P s → Q (f s).1 (f s).2) :
    Triple P (Prog.step f : Prog ε σ α) Q E :=
  fun s _ hs => post_ok (h s hs)

lemma hang : Triple P (Prog.hang : Prog ε σ α) Q E :=
  fun _ _ _ => ⟨fun _ h => absurd h (by simp [Prog.hang]),
    fun _ h => absurd h (by simp [Prog.hang])⟩

lemma bind {f : α → Prog ε σ β} {Q : β → σ → Prop} (hx : Triple P x R E)
    (hf : ∀ a, Triple (R a) (f a) Q E) : Triple P (x >>= f) Q E := by
  intro s t hs
  cases hxs : x s with
  | none =>
      rw [bind_none hxs]
      exact ⟨fun _ h => absurd h (by simp), fun _ h => absurd h (by simp)⟩
  | some r =>
      obtain ⟨r, u⟩ := r
      cases r with
      | ok a =>
          rw [bind_ok hxs]
          exact hf a u t ((hx s u hs).1 a hxs)
      | error e =>
          rw [bind_error hxs]
          exact post_error ((hx s u hs).2 e hxs)

lemma conseq (h : Triple P x Q E) (hP : ∀ s, P' s → P s) (hQ : ∀ a s, Q a s → Q' a s)
    (hE : ∀ e s, E e s → E' e s) : Triple P' x Q' E' :=
  fun s t hs => ⟨fun a ha => hQ a t ((h s t (hP s hs)).1 a ha),
    fun e he => hE e t ((h s t (hP s hs)).2 e he)⟩

/-- What a precondition says of no state is there for the proof. -/
lemma of_and {p : Prop} (h : p → Triple P x Q E) : Triple (fun s => p ∧ P s) x Q E :=
  fun s t hs => h hs.1 s t hs.2

lemma rethrow {f : ε → ε'} {E : ε' → σ → Prop} (h : Triple P x Q fun e => E (f e)) :
    Triple P (Prog.rethrow f x) Q E := by
  intro s t hs
  rw [rethrow_apply]
  cases hxs : x s with
  | none => exact ⟨fun _ h => absurd h (by simp), fun _ h => absurd h (by simp)⟩
  | some r =>
      obtain ⟨r, u⟩ := r
      cases r with
      | ok a => exact post_ok ((h s u hs).1 a hxs)
      | error e => exact post_error ((h s u hs).2 e hxs)

lemma ite {p : Prop} [Decidable p] {y : Prog ε σ α} (hx : p → Triple P x Q E)
    (hy : ¬p → Triple P y Q E) : Triple P (if p then x else y) Q E := by
  split
  · next h => exact hx h
  · next h => exact hy h

end Triple

end Prog

end Lib
