import Mathlib.Logic.Function.Basic
import Mycelium.Lib.Machine

/-!
# Programs with objects

A class has constructors, member functions and a destructor, all of which work on a state that the
objects share and can throw.  A program makes objects, calls their member functions in any order,
and deletes them.  When every function of one class does what that of another class does, up to a
relation of the objects and the states, then so does every program: this is `Simulates.runs`.
-/

namespace Lib

variable {σ τ β γ κ μ ω : Type}

/-- A class with objects `β` over a state `σ`; `none` is a call that does not return.  What a
constructor throws is its answer. -/
structure Class (σ β κ μ ω : Type) where
  new : κ → σ → Option (Except ω β × σ)
  call : β → μ → σ → Option (ω × β × σ)
  delete : β → σ → Option (ω × σ)

namespace Class

/-- What a program does; it knows an object by the number of objects that were made before it. -/
inductive Action (κ μ : Type) where
  | new (k : κ)
  | call (n : ℕ) (m : μ)
  | delete (n : ℕ)
deriving DecidableEq, Repr

/-- The objects and the state that they share. -/
structure Heap (σ β : Type) where
  objects : ℕ → Option β := fun _ => none
  made : ℕ := 0
  state : σ

namespace Heap

/-- A constructor comes back. -/
def add (h : Heap σ β) (r : Except ω β × σ) : Option ω × Heap σ β :=
  match r.1 with
  | .ok b => (none, ⟨Function.update h.objects h.made (some b), h.made + 1, r.2⟩)
  | .error e => (some e, { h with state := r.2 })

/-- Puts an object in its place, or takes it away. -/
def put (h : Heap σ β) (n : ℕ) (b : Option β) (s : σ) : Heap σ β :=
  { h with objects := Function.update h.objects n b, state := s }

end Heap

/-- The programs with the objects of a class.  A constructor that returns has no answer. -/
def machine (C : Class σ β κ μ ω) : Machine (Heap σ β) (Action κ μ) (Option ω) where
  exec h
    | .new k => (C.new k h.state).map h.add
    | .call n m => (h.objects n).bind fun b => (C.call b m h.state).map fun r =>
        (some r.1, h.put n (some r.2.1) r.2.2)
    | .delete n => (h.objects n).bind fun b => (C.delete b h.state).map fun r =>
        (some r.1, h.put n none r.2)

/-- What constructors come back with: related objects, or the same answer. -/
inductive Made (B : β → γ → Prop) : Except ω β → Except ω γ → Prop
  | ok (b : β) (c : γ) : B b c → Made B (.ok b) (.ok c)
  | error (e : ω) : Made B (.error e) (.error e)

/-- The functions of two classes do the same, up to a relation of the states and of the objects. -/
structure Simulates (C : Class σ β κ μ ω) (D : Class τ γ κ μ ω) (R : σ → τ → Prop)
    (B : β → γ → Prop) : Prop where
  new : ∀ k s t, R s t →
    Option.Rel (fun x y => Made B x.1 y.1 ∧ R x.2 y.2) (C.new k s) (D.new k t)
  call : ∀ b c m s t, B b c → R s t →
    Option.Rel (fun x y => x.1 = y.1 ∧ B x.2.1 y.2.1 ∧ R x.2.2 y.2.2) (C.call b m s) (D.call c m t)
  delete : ∀ b c s t, B b c → R s t →
    Option.Rel (fun x y => x.1 = y.1 ∧ R x.2 y.2) (C.delete b s) (D.delete c t)

/-- The objects of two programs, one by one, and the states. -/
structure Related (R : σ → τ → Prop) (B : β → γ → Prop) (h : Heap σ β) (g : Heap τ γ) : Prop where
  objects : ∀ n, Option.Rel B (h.objects n) (g.objects n)
  made : h.made = g.made
  state : R h.state g.state

section

variable {C : Class σ β κ μ ω} {D : Class τ γ κ μ ω} {R : σ → τ → Prop} {B : β → γ → Prop}
  {h : Heap σ β} {g : Heap τ γ}

/-- No objects have been made. -/
lemma related_new {s : σ} {t : τ} (hs : R s t) :
    Related R B ({ state := s } : Heap σ β) ({ state := t } : Heap τ γ) :=
  ⟨fun _ => .none, rfl, hs⟩

lemma rel_update {f : ℕ → Option β} {f' : ℕ → Option γ} {b : Option β} {c : Option γ} (n : ℕ)
    (hf : ∀ n, Option.Rel B (f n) (f' n)) (hbc : Option.Rel B b c) (k : ℕ) :
    Option.Rel B (Function.update f n b k) (Function.update f' n c k) := by
  by_cases hk : k = n
  · subst hk
    rwa [Function.update_self, Function.update_self]
  · rw [Function.update_of_ne hk, Function.update_of_ne hk]
    exact hf k

lemma Related.add (hg : Related R B h g) {x : Except ω β × σ} {y : Except ω γ × τ}
    (hxy : Made B x.1 y.1) (hs : R x.2 y.2) :
    (h.add x).1 = (g.add y).1 ∧ Related R B (h.add x).2 (g.add y).2 := by
  obtain ⟨x, s⟩ := x
  obtain ⟨y, t⟩ := y
  cases hxy with
  | ok b c hbc =>
      refine ⟨rfl, fun n => ?_, congrArg (· + 1) hg.made, hs⟩
      simp only [Heap.add, hg.made]
      exact rel_update _ hg.objects (.some hbc) n
  | error e => exact ⟨rfl, hg.objects, hg.made, hs⟩

lemma Related.put (hg : Related R B h g) {b : Option β} {c : Option γ} {s : σ} {t : τ} (n : ℕ)
    (hbc : Option.Rel B b c) (hs : R s t) : Related R B (h.put n b s) (g.put n c t) :=
  ⟨rel_update n hg.objects hbc, hg.made, hs⟩

/-- One step of a program. -/
lemma Simulates.exec (hCD : Simulates C D R B) (hg : Related R B h g) (a : Action κ μ) :
    Option.Rel (fun x y => x.1 = y.1 ∧ Related R B x.2 y.2)
      (C.machine.exec h a) (D.machine.exec g a) := by
  cases a with
  | new k => exact rel_map (hCD.new k _ _ hg.state) fun x y hxy => hg.add hxy.1 hxy.2
  | call n m =>
      refine rel_bind (hg.objects n) fun b c hbc => ?_
      refine rel_map (hCD.call b c m _ _ hbc hg.state) fun x y hxy => ?_
      exact ⟨congrArg some hxy.1, hg.put n (.some hxy.2.1) hxy.2.2⟩
  | delete n =>
      refine rel_bind (hg.objects n) fun b c hbc => ?_
      refine rel_map (hCD.delete b c _ _ hbc hg.state) fun x y hxy => ?_
      exact ⟨congrArg some hxy.1, hg.put n .none hxy.2⟩

/-- Whole programs get the same answers. -/
theorem Simulates.runs (hCD : Simulates C D R B) (hg : Related R B h g)
    (actions : List (Action κ μ)) :
    Option.Rel (fun x y => x.1 = y.1 ∧ Related R B x.2 y.2)
      (C.machine.runs h actions) (D.machine.runs g actions) :=
  Machine.runs_rel (R := Related R B) (fun _ _ a hs => hCD.exec hs a) actions hg

end

end Class

end Lib
