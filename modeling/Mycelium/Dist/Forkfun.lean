import Mathlib.Algebra.BigOperators.Group.Finset.Basic
import Mathlib.Algebra.Order.BigOperators.Group.Finset
import Mathlib.Algebra.Order.Group.Multiset
import Mathlib.Data.List.ProdSigma
import Mathlib.Tactic.Abel
import Mycelium.Lib.Machine

/-!
# `forkfun`

The parent hands the values of a sequence out to its children, the next one to the child that has
just replied, and gives what they return to the accumulator.  Each message is on its pipe as a
whole; the parent and the children take turns in any order.

Every value is in one place at any time: not handed out, on the pipe to a child, at work, on the
pipe to the parent, or accumulated.  Each step of a process brings one message further, so that
every run ends, and it ends with everything accumulated.
-/

namespace Mycelium

open Lib Finset

namespace Forkfun

/-! ### The processes -/

/-- What a child is doing. -/
inductive Work (X : Type) where
  | waiting
  | working (index : ℕ) (value : X)
  | exited
  /-- `os.wait` has returned it to the parent. -/
  | reaped
deriving DecidableEq, Repr

/-- A child, with the messages on the pipe to it. -/
structure Child (X : Type) where
  inbox : List (Option (ℕ × X)) := []
  work : Work X := .waiting
deriving DecidableEq, Repr

/-- A message on the pipe to a child. -/
def Child.receive {X : Type} (ch : Child X) (message : Option (ℕ × X)) : Child X :=
  { ch with inbox := ch.inbox ++ [message] }

/-- What the parent can raise. -/
inductive Raised (E : Type) where
  /-- The iterator had nothing left. -/
  | stopIteration
  /-- The exception that came back from a child. -/
  | value (e : E)
deriving DecidableEq, Repr

/-- The arguments of `forkfun`.  The function raises an exception, which is an `error` here, or
returns a value, which is not itself an exception. -/
structure Job (X E V : Type) where
  function : X → Except E V
  sequence : List X
  /-- `function.parallel_maxchildren`, or `numcores()`. -/
  maxchildren : ℕ

/-- The number of children. -/
def Job.children {X E V : Type} (j : Job X E V) : ℕ := min j.maxchildren j.sequence.length

/-- The variables of the parent, the children and the pipe to the parent. -/
structure State (X E V : Type) where
  child : ℕ → Child X := fun _ => {}
  /-- `len(children)`. -/
  spawned : ℕ := 0
  sequenceIter : List X
  sequenceIdx : ℕ := 0
  /-- The messages on `toparent`. -/
  replies : List (ℕ × ℕ × Except E V) := []
  finished : ℕ := 0
  /-- The arguments of the calls of `accumulator`. -/
  accumulated : List V := []
  /-- The number of children that were sent `None`. -/
  told : ℕ := 0
  /-- The number of returns of `os.wait`. -/
  waited : ℕ := 0
  /-- All messages of the parent, with the child. -/
  sent : List (ℕ × Option (ℕ × X)) := []
  raised : Option (Raised E) := none

variable {X E V : Type}

/-- Where `forkfun` begins. -/
def Job.start (j : Job X E V) : State X E V where
  sequenceIter := j.sequence

namespace State

/-- Puts a child in the place of another one. -/
def setChild (s : State X E V) (c : ℕ) (ch : Child X) : State X E V :=
  { s with child := Function.update s.child c ch }

/-- `sendmessage` to a child. -/
def send (s : State X E V) (c : ℕ) (message : Option (ℕ × X)) : State X E V :=
  { s with sent := s.sent ++ [(c, message)] }.setChild c ((s.child c).receive message)

/-- Sends a child the next value of the sequence. -/
def handOut (s : State X E V) (c : ℕ) : Except (Raised E) (State X E V) :=
  match s.sequenceIter with
  | [] => .error .stopIteration
  | x :: xs =>
      .ok ({ s with sequenceIter := xs, sequenceIdx := s.sequenceIdx + 1 }.send c
        (some (s.sequenceIdx, x)))

/-- `sendmessage` to the parent. -/
def reply (s : State X E V) (messages : List (ℕ × ℕ × Except E V)) : State X E V :=
  { s with replies := s.replies ++ messages }

/-- The body of the loop that forks the children. -/
def spawn (s : State X E V) : Except (Raised E) (State X E V) :=
  { s with spawned := s.spawned + 1 }.handOut s.spawned

/-- `accumulator(value)`. -/
def accumulate (s : State X E V) (v : V) : State X E V :=
  { s with accumulated := s.accumulated ++ [v], finished := s.finished + 1 }

/-- The body of the loop that takes the replies; `none` while there is none. -/
def collect (j : Job X E V) (s : State X E V) : Option (Except (Raised E) (State X E V)) :=
  match s.replies with
  | [] => none
  | (_, _, .error e) :: _ => some (.error (.value e))
  | (returnchild, _, .ok v) :: rest =>
      if s.sequenceIdx < j.sequence.length then
        some (({ s with replies := rest }.handOut returnchild).map (State.accumulate · v))
      else some (.ok ({ s with replies := rest }.accumulate v))

/-- A statement of the parent that raises ends `forkfun`. -/
def settle (s : State X E V) : Except (Raised E) (State X E V) → State X E V
  | .ok t => t
  | .error e => { s with raised := some e }

/-- The next step of the parent. -/
def parent (j : Job X E V) (s : State X E V) : Option (State X E V) :=
  if s.raised.isSome then none
  else if s.spawned < j.children then some (s.settle s.spawn)
  else if s.finished < j.sequence.length then (s.collect j).map s.settle
  else if s.told < s.spawned then some ({ s with told := s.told + 1 }.send s.told none)
  else none

/-- The next step of a child. -/
def step (j : Job X E V) (s : State X E V) (c : ℕ) : Option (State X E V) :=
  match (s.child c).work with
  | .waiting =>
      match (s.child c).inbox with
      | [] => none
      | none :: rest => some (s.setChild c ⟨rest, .exited⟩)
      | some (index, value) :: rest => some (s.setChild c ⟨rest, .working index value⟩)
  | .working index value =>
      let after : Work X := match j.function value with
        | .ok _ => .waiting
        | .error _ => .exited
      some ((s.setChild c { s.child c with work := after }).reply
        [(c, index, j.function value)])
  | .exited => none
  | .reaped => none

/-- `os.wait` returns a child, in the last loop of the parent. -/
def wait (j : Job X E V) (s : State X E V) (c : ℕ) : Option (State X E V) :=
  if s.raised.isSome ∨ s.spawned < j.children ∨ s.finished < j.sequence.length ∨
      s.told < s.spawned ∨ s.spawned ≤ s.waited then none
  else
    match (s.child c).work with
    | .exited =>
        some ({ s with waited := s.waited + 1 }.setChild c { s.child c with work := .reaped })
    | _ => none

end State

/-- Whose turn it is. -/
inductive Turn where
  | parent
  | child (c : ℕ)
  | wait (c : ℕ)
deriving DecidableEq, Repr

/-- The processes of `forkfun`. -/
def machine (j : Job X E V) : Machine (State X E V) Turn Unit where
  exec s
    | .parent => (s.parent j).map ((), ·)
    | .child c => if c < s.spawned then (s.step j c).map ((), ·) else none
    | .wait c => if c < s.spawned then (s.wait j c).map ((), ·) else none

/-- `forkfun` has returned. -/
structure Returned (j : Job X E V) (s : State X E V) : Prop where
  raised : s.raised = none
  spawned : s.spawned = j.children
  finished : s.finished = j.sequence.length
  told : s.told = s.spawned
  waited : s.waited = s.spawned

/-! ### Where the values are -/

/-- The value a child is working on. -/
def Work.values : Work X → Multiset X
  | .working _ x => {x}
  | _ => 0

/-- The values that a child has not replied to. -/
def Child.pending (ch : Child X) : Multiset X :=
  ↑(ch.inbox.filterMap (Option.map Prod.snd)) + ch.work.values

/-- The number of assignments of a child that are not answered. -/
def outstanding (s : State X E V) (c : ℕ) : ℕ :=
  (s.child c).pending.card + s.replies.countP (·.1 = c)

/-- A child that was sent `None`. -/
def Child.Leaving (ch : Child X) : Prop :=
  ch.inbox = [none] ∧ ch.work = .waiting ∨ ch.inbox = [] ∧ (ch.work = .exited ∨ ch.work = .reaped)

/-- A child that was not. -/
def Child.Serving (ch : Child X) : Prop :=
  none ∉ ch.inbox ∧ (ch.work = .waiting ∨ ∃ i x, ch.work = .working i x)

/-- Whether `os.wait` has returned the child. -/
def Work.reaps : Work X → ℕ
  | .reaped => 1
  | _ => 0

/-- The variables of the parent. -/
structure ParentOk (j : Job X E V) (s : State X E V) : Prop where
  raised : s.raised = none
  iter : s.sequenceIter = j.sequence.drop s.sequenceIdx
  idx_le : s.sequenceIdx ≤ j.sequence.length
  spawned_le : s.spawned ≤ j.children
  spawning : s.spawned < j.children → s.sequenceIdx = s.spawned ∧ s.finished = 0
  accumulated : s.accumulated.length = s.finished
  sent : s.sent.filterMap Prod.snd = (j.sequence.take s.sequenceIdx).zipIdx.map Prod.swap
  told_le : s.told ≤ s.spawned
  telling : 0 < s.told → s.spawned = j.children ∧ s.finished = j.sequence.length
  nones : ∀ c < s.told, (c, none) ∈ s.sent

/-- A child, by what the parent has done with it. -/
def ChildOk (j : Job X E V) (s : State X E V) (c : ℕ) : Prop :=
  if c < s.told then outstanding s c = 0 ∧ (s.child c).Leaving
  else if c < s.spawned then
    outstanding s c ≤ 1 ∧ (s.sequenceIdx < j.sequence.length → outstanding s c = 1) ∧
      (s.child c).Serving
  else outstanding s c = 0 ∧ s.child c = {}

/-- What the function makes of the values that were handed out, wherever they are. -/
def accounted (j : Job X E V) (s : State X E V) : Multiset (Except E V) :=
  Multiset.ofList (s.accumulated.map Except.ok) +
    ∑ c ∈ range s.spawned, (s.child c).pending.map j.function +
    Multiset.ofList (s.replies.map (·.2.2))

structure Inv (j : Job X E V) (s : State X E V) : Prop where
  parent : ParentOk j s
  child : ∀ c, ChildOk j s c
  ledger : accounted j s = Multiset.ofList ((j.sequence.take s.sequenceIdx).map j.function)
  waited : s.waited = ∑ c ∈ range s.spawned, (s.child c).work.reaps

/-- The steps that the messages to and from a child are still good for. -/
def Child.weight (ch : Child X) : ℕ :=
  (ch.inbox.map fun message => if message.isSome then 3 else 2).sum +
    match ch.work with
    | .working _ _ => 2
    | .exited => 1
    | _ => 0

/-- The number of steps to the end. -/
def remaining (j : Job X E V) (s : State X E V) : ℕ :=
  3 * (j.sequence.length - s.sequenceIdx) + (j.children - s.spawned) + 3 * (j.children - s.told) +
    s.replies.length + ∑ c ∈ range s.spawned, (s.child c).weight

section

variable {j : Job X E V} {s t : State X E V} {c d : ℕ}

/-- A sum over the children, one of which changes. -/
lemma sum_update {M : Type} [AddCommMonoid M] (g : Child X → M) (f : ℕ → Child X) {n : ℕ}
    (hc : c < n) (ch : Child X) :
    ∑ d ∈ range n, g (Function.update f c ch d) + g (f c) = ∑ d ∈ range n, g (f d) + g ch := by
  have hmem : c ∈ range n := mem_range.2 hc
  have hrest : ∑ d ∈ (range n).erase c, g (Function.update f c ch d) =
      ∑ d ∈ (range n).erase c, g (f d) :=
    sum_congr rfl fun d hd => by rw [Function.update_of_ne (ne_of_mem_erase hd)]
  rw [← add_sum_erase _ (fun d => g (Function.update f c ch d)) hmem,
    ← add_sum_erase _ (fun d => g (f d)) hmem, hrest, Function.update_self, add_comm (g ch),
    add_comm (g (f c)), add_right_comm]

/-- A child that is not touched, and that sends nothing, stays as it was. -/
lemma ChildOk.congr (h : ChildOk j s d) (hchild : t.child d = s.child d)
    (hreplies : t.replies.countP (·.1 = d) = s.replies.countP (·.1 = d))
    (hidx : s.sequenceIdx ≤ t.sequenceIdx) (hspawned : d < t.spawned ↔ d < s.spawned)
    (htold : d < t.told ↔ d < s.told) : ChildOk j t d := by
  have hout : outstanding t d = outstanding s d := by
    rw [outstanding, outstanding, hchild, hreplies]
  rw [ChildOk] at h ⊢
  simp only [hout, hchild, hspawned, htold]
  split
  · next hd => rwa [if_pos hd] at h
  · next hd =>
      rw [if_neg hd] at h
      split
      · next hd' =>
          rw [if_pos hd'] at h
          exact ⟨h.1, fun hlt => h.2.1 (by omega), h.2.2⟩
      · next hd' => rwa [if_neg hd'] at h

/-- Another child in the place of one, with messages from it, of which the parent has waited for
`w`. -/
def State.turn (s : State X E V) (c : ℕ) (ch : Child X) (messages : List (ℕ × ℕ × Except E V))
    (w : ℕ) : State X E V :=
  ({ s with waited := s.waited + w }.setChild c ch).reply messages

/-- The other variables of the parent do not depend on the children. -/
lemma ParentOk.turn (h : ParentOk j s) (ch : Child X) (messages : List (ℕ × ℕ × Except E V))
    (w : ℕ) : ParentOk j (s.turn c ch messages w) :=
  ⟨h.raised, h.iter, h.idx_le, h.spawned_le, h.spawning, h.accumulated, h.sent, h.told_le,
    h.telling, h.nones⟩

/-- A turn of a child: it goes on with the same values, some of which are now replies. -/
lemma Inv.turn {ch : Child X} {messages : List (ℕ × ℕ × Except E V)} {w : ℕ} (h : Inv j s)
    (hc : c < s.spawned) (hfrom : ∀ r ∈ messages, r.1 = c)
    (hpending : ch.pending.map j.function + Multiset.ofList (messages.map (·.2.2)) =
      (s.child c).pending.map j.function)
    (hreaps : ch.work.reaps = (s.child c).work.reaps + w)
    (hleaving : (s.child c).Leaving → ch.Leaving) (hserving : (s.child c).Serving → ch.Serving)
    (hweight : ch.weight + messages.length + 1 = (s.child c).weight) :
    Inv j (s.turn c ch messages w) ∧
      remaining j (s.turn c ch messages w) + 1 = remaining j s := by
  have hcard : ch.pending.card + messages.length = (s.child c).pending.card := by
    simpa using congrArg Multiset.card hpending
  refine ⟨⟨h.parent.turn ch messages w, fun d => ?_, ?_, ?_⟩, ?_⟩
  · by_cases hd : d = c
    · subst hd
      have hcount : messages.countP (·.1 = d) = messages.length := by
        rw [List.countP_eq_length]
        exact fun r hr => by simpa using hfrom r hr
      have hout : outstanding (s.turn d ch messages w) d = outstanding s d := by
        simp only [outstanding, State.turn, State.setChild, State.reply, Function.update_self,
          List.countP_append, hcount]
        omega
      have hok := h.child d
      rw [ChildOk] at hok ⊢
      rw [hout]
      simp only [State.turn, State.reply, State.setChild, Function.update_self]
      split
      · next hd =>
          rw [if_pos hd] at hok
          exact ⟨hok.1, hleaving hok.2⟩
      · next hd =>
          rw [if_neg hd, if_pos hc] at hok
          exact ⟨hok.1, hok.2.1, hserving hok.2.2⟩
    · have hcount : messages.countP (·.1 = d) = 0 := by
        rw [List.countP_eq_zero]
        exact fun r hr => by simpa [hfrom r hr] using Ne.symm hd
      refine (h.child d).congr ?_ ?_ le_rfl Iff.rfl Iff.rfl
      · simp [State.turn, State.setChild, State.reply, hd]
      · simp [State.turn, State.setChild, State.reply, hcount]
  · have hsum := sum_update (fun ch => ch.pending.map j.function) s.child hc ch
    rw [← hpending, add_comm (ch.pending.map j.function), ← add_assoc] at hsum
    refine Eq.trans ?_ h.ledger
    simp only [accounted, State.turn, State.reply, State.setChild, List.map_append,
      ← Multiset.coe_add]
    rw [← add_right_cancel hsum]
    abel
  · have hsum := sum_update (fun ch => ch.work.reaps) s.child hc ch
    have hwaited := h.waited
    simp only [State.turn, State.reply, State.setChild]
    omega
  · have hsum := sum_update Child.weight s.child hc ch
    simp only [remaining, State.turn, State.reply, State.setChild, List.length_append]
    omega

/-- Everything handed out is counted once. -/
lemma Inv.card (h : Inv j s) :
    s.finished + ∑ c ∈ range s.spawned, (s.child c).pending.card + s.replies.length =
      s.sequenceIdx := by
  have hcard := congrArg Multiset.card h.ledger
  have hidx := h.parent.idx_le
  simp only [accounted, Multiset.card_add, Multiset.coe_card, List.length_map, Multiset.card_sum,
    Multiset.card_map, List.length_take] at hcard
  rw [h.parent.accumulated] at hcard
  omega

/-- The results are those of the function. -/
lemma Inv.isOk (h : Inv j s) (hf : ∀ x ∈ j.sequence, ∃ v, j.function x = .ok v) {r : Except E V}
    (hr : r ∈ accounted j s) : ∃ v, r = .ok v := by
  rw [h.ledger] at hr
  obtain ⟨x, hx, rfl⟩ := List.mem_map.1 (Multiset.mem_coe.1 hr)
  exact hf x (List.mem_of_mem_take hx)

lemma Inv.isOk_pending (h : Inv j s) (hf : ∀ x ∈ j.sequence, ∃ v, j.function x = .ok v)
    (hc : c < s.spawned) {x : X} (hx : x ∈ (s.child c).pending) : ∃ v, j.function x = .ok v := by
  refine h.isOk hf ?_
  rw [accounted, Multiset.mem_add, Multiset.mem_add]
  refine .inl (.inr (Multiset.mem_sum.2 ⟨c, mem_range.2 hc, ?_⟩))
  exact Multiset.mem_map_of_mem _ hx

/-- A step of a child. -/
lemma Inv.step (h : Inv j s) (hf : ∀ x ∈ j.sequence, ∃ v, j.function x = .ok v)
    (hc : c < s.spawned) (hstep : s.step j c = some t) :
    Inv j t ∧ remaining j t + 1 = remaining j s := by
  have hkeep : ∀ ch, s.setChild c ch = s.turn c ch [] 0 := fun ch => by
    simp [State.turn, State.setChild, State.reply]
  rw [State.step] at hstep
  cases hwork : (s.child c).work with
  | waiting =>
      cases hinbox : (s.child c).inbox with
      | nil => simp [hwork, hinbox] at hstep
      | cons message rest =>
          cases message with
          | none =>
              simp only [hwork, hinbox, Option.some.injEq] at hstep
              subst hstep
              rw [hkeep]
              refine h.turn hc (by simp) ?_ ?_ ?_ ?_ ?_
              · simp [Child.pending, Work.values, hwork, hinbox]
              · simp [Work.reaps, hwork]
              · rintro (⟨hnone, -⟩ | ⟨hnil, -⟩)
                · rw [hinbox] at hnone
                  exact .inr ⟨(List.cons.inj hnone).2, .inl rfl⟩
                · exact absurd (hinbox.symm.trans hnil) (by simp)
              · rintro ⟨hnone, -⟩
                exact absurd (hinbox ▸ List.mem_cons_self) hnone
              · simp [Child.weight, hwork, hinbox]
                omega
          | some a =>
              obtain ⟨i, x⟩ := a
              simp only [hwork, hinbox, Option.some.injEq] at hstep
              subst hstep
              rw [hkeep]
              refine h.turn hc (by simp) ?_ ?_ ?_ ?_ ?_
              · simp [Child.pending, Work.values, hwork, hinbox]
                rw [add_comm, Multiset.singleton_add, Multiset.cons_coe]
              · simp [Work.reaps, hwork]
              · rintro (⟨hnone, -⟩ | ⟨hnil, -⟩)
                · exact absurd (hinbox.symm.trans hnone) (by simp)
                · exact absurd (hinbox.symm.trans hnil) (by simp)
              · rintro ⟨hnone, -⟩
                rw [hinbox] at hnone
                exact ⟨fun hin => hnone (List.mem_cons_of_mem _ hin), .inr ⟨i, x, rfl⟩⟩
              · simp [Child.weight, hwork, hinbox]
                omega
  | working i x =>
      obtain ⟨v, hv⟩ : ∃ v, j.function x = .ok v :=
        h.isOk_pending hf hc (by simp [Child.pending, Work.values, hwork])
      simp only [hwork, hv, Option.some.injEq] at hstep
      subst hstep
      refine h.turn (w := 0) hc (by simp) ?_ ?_ ?_ ?_ ?_
      · simp [Child.pending, Work.values, hwork, hv]
      · simp [Work.reaps, hwork]
      · rintro (⟨-, hw⟩ | ⟨-, hw | hw⟩) <;> exact absurd (hwork.symm.trans hw) (by simp)
      · rintro ⟨hnone, -⟩
        exact ⟨hnone, .inl rfl⟩
      · simp [Child.weight, hwork]
  | exited => simp [hwork] at hstep
  | reaped => simp [hwork] at hstep

/-- The parent learns that a child has ended. -/
lemma Inv.wait (h : Inv j s) (hc : c < s.spawned) (hstep : s.wait j c = some t) :
    Inv j t ∧ remaining j t + 1 = remaining j s := by
  rw [State.wait] at hstep
  split at hstep
  · exact absurd hstep (by simp)
  · cases hwork : (s.child c).work with
    | exited =>
        simp only [hwork, Option.some.injEq] at hstep
        have hturn : t = s.turn c { s.child c with work := .reaped } [] 1 := by
          rw [← hstep]
          simp [State.turn, State.setChild, State.reply]
        rw [hturn]
        refine h.turn hc (by simp) ?_ ?_ ?_ ?_ ?_
        · simp [Child.pending, Work.values, hwork]
        · simp [Work.reaps, hwork]
        · rintro (⟨-, hw⟩ | ⟨hnil, -⟩)
          · exact absurd (hwork.symm.trans hw) (by simp)
          · exact .inr ⟨hnil, .inr rfl⟩
        · rintro ⟨-, hw | ⟨i, x, hw⟩⟩ <;> exact absurd (hwork.symm.trans hw) (by simp)
        · simp [Child.weight, hwork]
    | _ => simp [hwork] at hstep

/-! ### The parent -/

/-- The next value of the iterator. -/
lemma ParentOk.next (h : ParentOk j s) (hlt : s.sequenceIdx < j.sequence.length) (c : ℕ) :
    ∃ x xs, s.sequenceIter = x :: xs ∧ xs = j.sequence.drop (s.sequenceIdx + 1) ∧
      j.sequence.take (s.sequenceIdx + 1) = j.sequence.take s.sequenceIdx ++ [x] ∧
      (s.sent ++ [(c, some (s.sequenceIdx, x))]).filterMap Prod.snd =
        (j.sequence.take (s.sequenceIdx + 1)).zipIdx.map Prod.swap := by
  have htake : j.sequence.take (s.sequenceIdx + 1) =
      j.sequence.take s.sequenceIdx ++ [j.sequence[s.sequenceIdx]] := by
    rw [List.take_succ_eq_append_getElem hlt]
  refine ⟨j.sequence[s.sequenceIdx], _, ?_, rfl, htake, ?_⟩
  · rw [h.iter, List.drop_eq_getElem_cons hlt]
  · rw [htake, List.filterMap_append, h.sent, List.zipIdx_append, List.map_append]
    simp [Nat.min_eq_left (le_of_lt hlt)]

lemma ParentOk.told_eq_zero (h : ParentOk j s)
    (hlt : s.spawned < j.children ∨ s.finished < j.sequence.length) : s.told = 0 := by
  have htelling := h.telling
  omega

@[simp] lemma pending_receive_some (ch : Child X) (a : ℕ × X) :
    (ch.receive (some a)).pending = ch.pending + {a.2} := by
  simp only [Child.pending, Child.receive, List.filterMap_append, ← Multiset.coe_add]
  exact add_right_comm _ _ _

@[simp] lemma weight_receive_some (ch : Child X) (a : ℕ × X) :
    (ch.receive (some a)).weight = ch.weight + 3 := by
  simp only [Child.weight, Child.receive, List.map_append, List.sum_append, List.map_singleton,
    List.sum_singleton, Option.isSome_some, if_true]
  omega

lemma childOk_serving (htold : t.told ≤ d) (hspawned : d < t.spawned) (hout : outstanding t d ≤ 1)
    (hbusy : t.sequenceIdx < j.sequence.length → outstanding t d = 1)
    (hserving : (t.child d).Serving) : ChildOk j t d := by
  rw [ChildOk, if_neg (by omega), if_pos hspawned]
  exact ⟨hout, hbusy, hserving⟩

/-- A child without anything to do is given a value. -/
lemma childOk_receive {ch : Child X} {a : ℕ × X} (htold : t.told ≤ d) (hspawned : d < t.spawned)
    (hchild : t.child d = ch.receive (some a)) (hserving : ch.Serving)
    (hfree : ch.pending.card + t.replies.countP (·.1 = d) = 0) : ChildOk j t d := by
  have hone : outstanding t d = 1 := by
    rw [outstanding, hchild, pending_receive_some, Multiset.card_add, Multiset.card_singleton]
    omega
  refine childOk_serving htold hspawned (le_of_eq hone) (fun _ => hone) ?_
  rw [hchild]
  exact ⟨by simpa [Child.receive] using hserving.1, hserving.2⟩

/-- A child is forked and given its first value. -/
lemma Inv.spawn (h : Inv j s) (hlt : s.spawned < j.children) :
    ∃ t, s.spawn = .ok t ∧ Inv j t ∧ remaining j t + 1 = remaining j s := by
  have hidx := (h.parent.spawning hlt).1
  have hchildren : j.children ≤ j.sequence.length := min_le_right _ _
  have htold := h.parent.told_eq_zero (.inl hlt)
  obtain ⟨x, xs, hiter, hxs, htake, hsent⟩ := h.parent.next (c := s.spawned) (by omega)
  obtain ⟨hout, hfresh⟩ : outstanding s s.spawned = 0 ∧ s.child s.spawned = {} := by
    have hok := h.child s.spawned
    rwa [ChildOk, if_neg (by omega), if_neg (by omega)] at hok
  -- the children before are the same
  have hsum : ∀ {M : Type} [AddCommMonoid M] (g : Child X → M) (ch : Child X),
      ∑ d ∈ range (s.spawned + 1), g (Function.update s.child s.spawned ch d) =
        ∑ d ∈ range s.spawned, g (s.child d) + g ch := by
    intro M _ g ch
    rw [sum_range_succ, Function.update_self]
    congr 1
    refine sum_congr rfl fun d hd => ?_
    rw [Function.update_of_ne (by have := mem_range.1 hd; omega)]
  refine ⟨{ s with
      spawned := s.spawned + 1, sequenceIter := xs, sequenceIdx := s.sequenceIdx + 1
      sent := s.sent ++ [(s.spawned, some (s.sequenceIdx, x))]
      child := Function.update s.child s.spawned
        ((s.child s.spawned).receive (some (s.sequenceIdx, x))) },
    by simp only [State.spawn, State.handOut, hiter]; rfl,
    ⟨⟨h.parent.raised, hxs, by simp only; omega, hlt, fun _ => ?_, h.parent.accumulated, hsent,
      by simp only; omega, by simp only; omega, by simp only; omega⟩, fun d => ?_, ?_, ?_⟩, ?_⟩
  · exact ⟨by simp only; omega, (h.parent.spawning hlt).2⟩
  · by_cases hd : d = s.spawned
    · subst hd
      exact childOk_receive (by simp only; omega) (Nat.lt_succ_self _) (Function.update_self ..)
        ⟨by simp [hfresh], .inl (by simp [hfresh])⟩ hout
    · refine (h.child d).congr ?_ rfl (by simp only; omega) (by simp only; omega) Iff.rfl
      exact Function.update_of_ne hd _ _
  · refine Eq.trans ?_ (congrArg (fun l => Multiset.ofList (l.map j.function)) htake.symm)
    have hledger := h.ledger
    simp only [accounted, List.map_append, ← Multiset.coe_add] at hledger ⊢
    rw [hsum (fun ch => ch.pending.map j.function), pending_receive_some, ← hledger, hfresh]
    simp only [Child.pending, Work.values, List.filterMap_nil, Multiset.coe_nil, zero_add,
      Multiset.map_singleton, List.map_singleton, Multiset.coe_singleton]
    abel
  · simp only
    rw [hsum (fun ch => ch.work.reaps), h.waited, hfresh]
    rfl
  · simp only [remaining]
    rw [hsum Child.weight, weight_receive_some, hfresh]
    simp only [Child.weight, List.map_nil, List.sum_nil]
    omega

/-- The head of the pipe to the parent is the reply of a child that serves. -/
lemma Inv.reply (h : Inv j s) (hf : ∀ x ∈ j.sequence, ∃ v, j.function x = .ok v) {i : ℕ}
    {r : Except E V} {rest : List (ℕ × ℕ × Except E V)} (hr : s.replies = (c, i, r) :: rest) :
    ∃ v, r = .ok v ∧ s.told ≤ c ∧ c < s.spawned ∧ (s.child c).Serving ∧
      (s.child c).pending.card + rest.countP (·.1 = c) = 0 := by
  obtain ⟨v, hv⟩ : ∃ v, r = .ok v := h.isOk hf (by simp [accounted, hr])
  have hpos : outstanding s c = (s.child c).pending.card + rest.countP (·.1 = c) + 1 := by
    rw [outstanding, hr, List.countP_cons_of_pos (by simp)]
    omega
  have hok := h.child c
  rw [ChildOk] at hok
  split at hok
  · omega
  · split at hok
    · next hspawned => exact ⟨v, hv, by omega, hspawned, hok.2.2, by omega⟩
    · omega

/-- A reply is taken, and its child given the next value, if there is one. -/
lemma Inv.collect (h : Inv j s) (hf : ∀ x ∈ j.sequence, ∃ v, j.function x = .ok v)
    (hspawned : s.spawned = j.children) (hlt : s.finished < j.sequence.length)
    {y : Except (Raised E) (State X E V)} (hy : s.collect j = some y) :
    ∃ t, y = .ok t ∧ Inv j t ∧ remaining j t + 1 = remaining j s := by
  rw [State.collect] at hy
  cases hr : s.replies with
  | nil => simp [hr] at hy
  | cons r rest =>
      obtain ⟨c, i, r⟩ := r
      obtain ⟨v, rfl, htold, hc, hserving, hfree⟩ := h.reply hf hr
      have hzero := h.parent.told_eq_zero (.inr hlt)
      simp only [hr] at hy
      have hne : ∀ {d}, d ≠ c → rest.countP (·.1 = d) = s.replies.countP (·.1 = d) := by
        intro d hd
        rw [hr, List.countP_cons_of_neg (by simpa using Ne.symm hd)]
      split at hy
      · next hidx =>
          obtain ⟨x, xs, hiter, hxs, htake, hsent⟩ := h.parent.next hidx c
          simp only [State.handOut, hiter, Except.map, Option.some.injEq] at hy
          have hpending := sum_update (fun ch => ch.pending.map j.function) s.child hc
            ((s.child c).receive (some (s.sequenceIdx, x)))
          have hreaps := sum_update (fun ch => ch.work.reaps) s.child hc
            ((s.child c).receive (some (s.sequenceIdx, x)))
          have hweight := sum_update Child.weight s.child hc
            ((s.child c).receive (some (s.sequenceIdx, x)))
          refine ⟨_, hy.symm, ⟨⟨h.parent.raised, hxs, hidx, h.parent.spawned_le,
            fun hlt => absurd hspawned (Nat.ne_of_lt hlt), ?_, hsent, h.parent.told_le,
            fun hpos => absurd hzero (Nat.ne_of_gt hpos), ?_⟩, fun d => ?_, ?_, ?_⟩, ?_⟩
          · simp [State.accumulate, State.send, State.setChild, h.parent.accumulated]
          · intro d hd
            simp only [State.accumulate, State.send, State.setChild] at hd
            omega
          · by_cases hd : d = c
            · subst hd
              exact childOk_receive htold hc (Function.update_self ..) hserving hfree
            · exact (h.child d).congr (Function.update_of_ne hd _ _) (hne hd) (Nat.le_succ _)
                Iff.rfl Iff.rfl
          · refine Eq.trans ?_ (congrArg (fun l => Multiset.ofList (l.map j.function)) htake.symm)
            have hledger := h.ledger
            rw [pending_receive_some, Multiset.map_add, add_left_comm, add_comm,
              add_left_cancel_iff] at hpending
            simp only [accounted, State.accumulate, State.send, State.setChild, List.map_append,
              ← Multiset.coe_add, hr, List.map_cons, ← Multiset.cons_coe,
              ← Multiset.singleton_add, List.map_nil, Multiset.coe_nil, add_zero] at hledger ⊢
            rw [hpending, ← hledger]
            simp only [Multiset.map_singleton]
            abel
          · have hwaited := h.waited
            simp only [State.accumulate, State.send, State.setChild]
            rw [show ((s.child c).receive (some (s.sequenceIdx, x))).work
              = (s.child c).work from rfl]
              at hreaps
            omega
          · rw [weight_receive_some] at hweight
            simp only [remaining, State.accumulate, State.send, State.setChild, hr,
              List.length_cons]
            omega
      · next hidx =>
          simp only [Option.some.injEq] at hy
          refine ⟨_, hy.symm, ⟨⟨h.parent.raised, h.parent.iter, h.parent.idx_le,
            h.parent.spawned_le, fun hlt => absurd hspawned (Nat.ne_of_lt hlt), ?_, h.parent.sent,
            h.parent.told_le, fun hpos => absurd hzero (Nat.ne_of_gt hpos), h.parent.nones⟩,
            fun d => ?_, ?_, h.waited⟩, ?_⟩
          · simp [State.accumulate, h.parent.accumulated]
          · by_cases hd : d = c
            · subst hd
              exact childOk_serving htold hc (hfree.trans_le (Nat.zero_le 1))
                (fun hlt => absurd hlt hidx) hserving
            · exact (h.child d).congr rfl (hne hd) le_rfl Iff.rfl Iff.rfl
          · refine Eq.trans ?_ h.ledger
            simp only [accounted, State.accumulate, List.map_append, ← Multiset.coe_add, hr,
              List.map_cons, ← Multiset.cons_coe, ← Multiset.singleton_add, List.map_nil,
              Multiset.coe_nil, add_zero]
            abel
          · simp only [remaining, State.accumulate, hr, List.length_cons]
            omega

/-- A child that serves and has nothing to do is as it was forked. -/
lemma Child.Serving.eq_of_pending {ch : Child X} (h : ch.Serving) (hp : ch.pending = 0) :
    ch = {} := by
  obtain ⟨hinbox, hwork⟩ := h
  have hcard : (ch.inbox.filterMap (Option.map Prod.snd)).length + ch.work.values.card = 0 := by
    rw [← Multiset.coe_card, ← Multiset.card_add]
    exact Multiset.card_eq_zero.2 hp
  have hnil : ch.inbox = [] := by
    refine List.eq_nil_iff_forall_not_mem.2 fun message hin => ?_
    cases message with
    | none => exact hinbox hin
    | some a =>
        have hmem : a.2 ∈ ch.inbox.filterMap (Option.map Prod.snd) :=
          List.mem_filterMap.2 ⟨some a, hin, rfl⟩
        have hpos := List.length_pos_of_mem hmem
        omega
  rcases hwork with hwork | ⟨i, x, hwork⟩
  · obtain ⟨inbox, work⟩ := ch
    obtain rfl : inbox = [] := hnil
    obtain rfl : work = .waiting := hwork
    rfl
  · rw [hwork, Work.values, Multiset.card_singleton] at hcard
    omega

/-- When everything is accumulated, nothing is anywhere else. -/
lemma Inv.idle (h : Inv j s) (hle : j.sequence.length ≤ s.finished) :
    s.finished = j.sequence.length ∧ s.sequenceIdx = j.sequence.length ∧ s.replies = [] ∧
      ∀ c < s.spawned, (s.child c).pending = 0 := by
  have hcard := h.card
  have hidx := h.parent.idx_le
  refine ⟨by omega, by omega, List.eq_nil_of_length_eq_zero (by omega), fun c hc => ?_⟩
  have hsum : ∑ c ∈ range s.spawned, (s.child c).pending.card = 0 := by omega
  exact Multiset.card_eq_zero.1 (sum_eq_zero_iff.1 hsum c (mem_range.2 hc))

/-- A child is sent `None`. -/
lemma Inv.tell (h : Inv j s) (hspawned : s.spawned = j.children)
    (hle : j.sequence.length ≤ s.finished) (hlt : s.told < s.spawned) :
    Inv j ({ s with told := s.told + 1 }.send s.told none) ∧
      remaining j ({ s with told := s.told + 1 }.send s.told none) + 1 = remaining j s := by
  obtain ⟨hfinished, hidx, hreplies, hpending⟩ := h.idle hle
  have hfree : s.child s.told = {} := by
    have hok := h.child s.told
    rw [ChildOk, if_neg (by omega), if_pos hlt] at hok
    exact hok.2.2.eq_of_pending (hpending _ hlt)
  have hsum : ∀ {M : Type} [AddCommMonoid M] (g : Child X → M),
      ∑ d ∈ range s.spawned, g (Function.update s.child s.told ((s.child s.told).receive none) d) +
        g {} = ∑ d ∈ range s.spawned, g (s.child d) + g ⟨[none], .waiting⟩ := by
    intro M _ g
    have hg := sum_update g s.child hlt ((s.child s.told).receive none)
    rwa [hfree] at hg ⊢
  refine ⟨⟨⟨h.parent.raised, h.parent.iter, h.parent.idx_le, h.parent.spawned_le,
    h.parent.spawning, h.parent.accumulated, ?_, hlt, fun _ => ⟨hspawned, hfinished⟩, ?_⟩,
    fun d => ?_, ?_, ?_⟩, ?_⟩
  · simp [State.send, State.setChild, h.parent.sent]
  · intro c hc
    by_cases hct : c = s.told
    · simp [State.send, State.setChild, hct]
    · have hin := h.parent.nones c (by simp only [State.send, State.setChild] at hc; omega)
      simp [State.send, State.setChild, hin]
  · by_cases hd : d = s.told
    · rw [ChildOk, if_pos (hd ▸ Nat.lt_succ_self _)]
      have hchild : ({ s with told := s.told + 1 }.send s.told none).child d =
          ⟨[none], .waiting⟩ := by
        rw [hd]
        exact (Function.update_self ..).trans (by rw [hfree]; rfl)
      rw [outstanding, hchild]
      exact ⟨by simp [State.send, State.setChild, hreplies, Child.pending, Work.values],
        .inl ⟨rfl, rfl⟩⟩
    · refine (h.child d).congr (Function.update_of_ne hd _ _) rfl le_rfl Iff.rfl ?_
      simp only [State.send, State.setChild]
      omega
  · refine Eq.trans ?_ h.ledger
    have hg := add_right_cancel (hsum (fun ch => ch.pending.map j.function))
    simp only [accounted, State.send, State.setChild, hg]
  · have hg := add_right_cancel (hsum (fun ch => ch.work.reaps))
    simp only [State.send, State.setChild, hg]
    exact h.waited
  · have hg : _ + 0 = _ + 2 := hsum Child.weight
    simp only [remaining, State.send, State.setChild]
    omega

/-- A step of the parent. -/
lemma Inv.parent_step (h : Inv j s) (hf : ∀ x ∈ j.sequence, ∃ v, j.function x = .ok v)
    (hstep : s.parent j = some t) : Inv j t ∧ remaining j t + 1 = remaining j s := by
  have hle := h.parent.spawned_le
  rw [State.parent, if_neg (by simp [h.parent.raised])] at hstep
  split at hstep
  · next hlt =>
      obtain ⟨u, hspawn, hu⟩ := h.spawn hlt
      rw [hspawn, Option.some.injEq] at hstep
      exact hstep ▸ hu
  · next hspawned =>
      split at hstep
      · next hlt =>
          obtain ⟨y, hy, hsettle⟩ := Option.map_eq_some_iff.1 hstep
          obtain ⟨u, rfl, hu⟩ := h.collect hf (by omega) hlt hy
          exact hsettle ▸ hu
      · split at hstep
        · next hlt =>
            rw [Option.some.injEq] at hstep
            exact hstep ▸ h.tell (by omega) (by omega) hlt
        · exact absurd hstep (by simp)

/-- A step of any process. -/
lemma Inv.exec (h : Inv j s) (hf : ∀ x ∈ j.sequence, ∃ v, j.function x = .ok v) {e : Turn}
    {o : Unit} (hexec : (machine j).exec s e = some (o, t)) :
    Inv j t ∧ remaining j t + 1 = remaining j s := by
  cases e with
  | parent =>
      have hstep : s.parent j = some t := by simpa [machine] using hexec
      exact h.parent_step hf hstep
  | child c =>
      obtain ⟨hc, hstep⟩ : c < s.spawned ∧ s.step j c = some t := by simpa [machine] using hexec
      exact h.step hf hc hstep
  | wait c =>
      obtain ⟨hc, hstep⟩ : c < s.spawned ∧ s.wait j c = some t := by simpa [machine] using hexec
      exact h.wait hc hstep

lemma inv_start (j : Job X E V) : Inv j j.start where
  parent := by
    constructor <;> simp [Job.start]
  child c := by
    simp [ChildOk, Job.start, outstanding, Child.pending, Work.values]
  ledger := by simp [accounted, Job.start]
  waited := by simp [Job.start]

/-! ### No deadlock -/

/-- A child that has something to do can do it. -/
lemma Child.Serving.step_isSome (h : (s.child c).Serving) (hp : (s.child c).pending ≠ 0) :
    (s.step j c).isSome := by
  rw [State.step]
  rcases h.2 with hwork | ⟨i, x, hwork⟩
  · cases hinbox : (s.child c).inbox with
    | nil => exact absurd (by simp [Child.pending, Work.values, hwork, hinbox]) hp
    | cons message rest => cases message <;> simp [hwork]
  · simp [hwork]

/-- While something is missing, it is on its way. -/
lemma Inv.exists_pending (h : Inv j s) (hm : 1 ≤ j.maxchildren) (hspawned : s.spawned = j.children)
    (hlt : s.finished < j.sequence.length) (hreplies : s.replies = []) :
    ∃ c < s.spawned, (s.child c).Serving ∧ (s.child c).pending ≠ 0 := by
  have htold := h.parent.told_eq_zero (.inr hlt)
  have hserving : ∀ c < s.spawned, outstanding s c = (s.child c).pending.card ∧
      (s.sequenceIdx < j.sequence.length → outstanding s c = 1) ∧ (s.child c).Serving := by
    intro c hc
    have hok := h.child c
    rw [ChildOk, if_neg (by omega), if_pos hc] at hok
    exact ⟨by simp [outstanding, hreplies], hok.2⟩
  by_cases hidx : s.sequenceIdx < j.sequence.length
  · have hpos : 0 < s.spawned := by
      rw [hspawned, Job.children]
      omega
    obtain ⟨hout, hone, hserve⟩ := hserving 0 hpos
    refine ⟨0, hpos, hserve, fun hzero => ?_⟩
    rw [hone hidx, hzero] at hout
    exact absurd hout (by simp)
  · have hcard := h.card
    have hle := h.parent.idx_le
    rw [hreplies, List.length_nil] at hcard
    obtain ⟨c, hc, hne⟩ := exists_ne_zero_of_sum_ne_zero
      (show ∑ c ∈ range s.spawned, (s.child c).pending.card ≠ 0 by omega)
    have hc := mem_range.1 hc
    exact ⟨c, hc, (hserving c hc).2.2, fun hzero => hne (by rw [hzero, Multiset.card_zero])⟩

lemma Work.reaps_le (w : Work X) : w.reaps ≤ 1 := by
  cases w <;> simp [Work.reaps]

/-- While a child has ended and was not waited for, the parent waits. -/
lemma Inv.waited_lt (h : Inv j s) (hc : c < s.spawned) (hwork : (s.child c).work = .exited) :
    s.waited < s.spawned := by
  rw [h.waited]
  calc ∑ c ∈ range s.spawned, (s.child c).work.reaps
      < ∑ _c ∈ range s.spawned, 1 :=
        sum_lt_sum (fun d _ => (s.child d).work.reaps_le)
          ⟨c, mem_range.2 hc, by rw [hwork]; exact Nat.zero_lt_one⟩
    _ = s.spawned := by simp

/-- A run that cannot go on has returned. -/
lemma Inv.returned (h : Inv j s) (hf : ∀ x ∈ j.sequence, ∃ v, j.function x = .ok v)
    (hm : 1 ≤ j.maxchildren) (hstuck : ∀ e, (machine j).exec s e = none) : Returned j s := by
  have hle := h.parent.spawned_le
  have hparent : s.parent j = none := Option.map_eq_none_iff.1 (hstuck .parent)
  have hchild : ∀ c < s.spawned, s.step j c = none := by
    intro c hc
    have hnone := hstuck (.child c)
    simp only [machine, if_pos hc, Option.map_eq_none_iff] at hnone
    exact hnone
  rw [State.parent, if_neg (by simp [h.parent.raised])] at hparent
  split at hparent
  · exact absurd hparent (by simp)
  · next hspawned =>
      split at hparent
      · next hlt =>
          -- nothing on the pipe to the parent, so a child has work to do
          have hreplies : s.replies = [] := by
            cases hr : s.replies with
            | nil => rfl
            | cons r rest =>
                obtain ⟨c, i, r⟩ := r
                obtain ⟨v, rfl, -⟩ := h.reply hf hr
                rw [Option.map_eq_none_iff, State.collect, hr] at hparent
                simp only at hparent
                split at hparent <;> exact absurd hparent (by simp)
          obtain ⟨c, hc, hserving, hpending⟩ :=
            h.exists_pending hm (by omega) hlt hreplies
          have hsome := hserving.step_isSome (j := j) hpending
          rw [hchild c hc] at hsome
          exact absurd hsome (by simp)
      · next hfinished =>
          split at hparent
          · exact absurd hparent (by simp)
          · next htold =>
              have hidle := h.idle (by omega)
              have htold_le := h.parent.told_le
              refine ⟨h.parent.raised, by omega, hidle.1, by omega, ?_⟩
              -- every child has left and was waited for
              have hall : ∀ c ∈ range s.spawned, (s.child c).work.reaps = 1 := by
                intro c hc
                have hc := mem_range.1 hc
                have hok := h.child c
                rw [ChildOk, if_pos (by omega)] at hok
                rcases hok.2 with ⟨hinbox, hwork⟩ | ⟨-, hwork | hwork⟩
                · exact absurd (hchild c hc) (by simp [State.step, hwork, hinbox])
                · have hwait := hstuck (.wait c)
                  have hlt := h.waited_lt hc hwork
                  simp only [machine, if_pos hc, Option.map_eq_none_iff, State.wait, hwork,
                    h.parent.raised] at hwait
                  rw [if_neg (by simp; omega)] at hwait
                  exact absurd hwait (by simp)
                · rw [hwork, Work.reaps]
              rw [h.waited, sum_congr rfl hall]
              simp

end

/-- Whatever the order in which the processes take their turns and the replies arrive: no child
ever has more than one assignment that is not answered, and every run comes to its end, which is
the return of `forkfun`.  By then each value was sent to one child, the accumulator was called once
with what the function makes of each value, and every child was sent `None`. -/
theorem processes_each_once {j : Job X E V} {t : State X E V} {l : List (Turn × Unit)}
    (hm : 1 ≤ j.maxchildren) (hf : ∀ x ∈ j.sequence, ∃ v, j.function x = .ok v)
    (hrun : Machine.Run (machine j) Machine.Free j.start l t) :
    (∀ c, outstanding t c ≤ 1) ∧
      l.length ≤ 3 * j.sequence.length + 4 * j.children ∧
      ((∀ e, (machine j).exec t e = none) → Returned j t) ∧
      (Returned j t →
        t.sent.filterMap Prod.snd = j.sequence.zipIdx.map Prod.swap ∧
        (t.accumulated.map Except.ok).Perm (j.sequence.map j.function) ∧
        ∀ c < t.spawned, (c, none) ∈ t.sent) := by
  have hinv : Inv j t :=
    hrun.invariant (fun _ _ _ _ h _ hexec => (h.exec hf hexec).1) (inv_start j)
  have hlength := hrun.length_add_le (μ := remaining j) (I := Inv j)
    (fun _ _ _ _ h _ hexec => ⟨(h.exec hf hexec).1, by have := (h.exec hf hexec).2; omega⟩)
    (inv_start j)
  refine ⟨fun c => ?_, ?_, hinv.returned hf hm, fun hret => ?_⟩
  · have hok := hinv.child c
    rw [ChildOk] at hok
    split at hok
    · omega
    · split at hok <;> omega
  · have hstart : remaining j j.start = 3 * j.sequence.length + 4 * j.children := by
      simp [remaining, Job.start]
      omega
    omega
  · obtain ⟨-, hidx, hreplies, hpending⟩ := hinv.idle hret.finished.ge
    refine ⟨?_, ?_, fun c hc => hinv.parent.nones c (hret.told ▸ hc)⟩
    · rw [hinv.parent.sent, hidx, List.take_length]
    · have hzero : ∑ c ∈ range t.spawned, (t.child c).pending.map j.function = 0 :=
        sum_eq_zero fun c hc => by rw [hpending c (mem_range.1 hc), Multiset.map_zero]
      have hledger := hinv.ledger
      rw [accounted, hzero, hreplies, hidx, List.take_length, List.map_nil, Multiset.coe_nil,
        add_zero, add_zero] at hledger
      exact Multiset.coe_eq_coe.1 hledger

/-- Three values and two children, of which the second is quicker. -/
def squares : Job ℕ Empty ℕ where
  function x := .ok (x * x)
  sequence := [1, 2, 3]
  maxchildren := 2

theorem processes_each_once_squares : ∃ (t : State ℕ Empty ℕ) (l : _),
    Machine.Run (machine squares) Machine.Free squares.start l t ∧ Returned squares t ∧
      (t.accumulated.map Except.ok).Perm (squares.sequence.map squares.function) := by
  obtain ⟨l, t, hrun, ht⟩ := Machine.exists_run_of_any
    (M := machine squares) (G := Machine.Free) (s := squares.start)
    [.parent, .parent, .child 1, .child 1, .child 0, .child 0, .parent, .parent, .child 1,
      .child 1, .parent, .parent, .parent, .child 0, .child 1, .wait 1, .wait 0]
    (p := fun x => decide (x.2.raised = none ∧ x.2.spawned = 2 ∧ x.2.finished = 3 ∧
      x.2.told = x.2.spawned ∧ x.2.waited = x.2.spawned))
    (fun _ _ _ => trivial) (by decide)
  obtain ⟨hraised, hspawned, hfinished, htold, hwaited⟩ := of_decide_eq_true ht
  have hret : Returned squares t := ⟨hraised, hspawned, hfinished, htold, hwaited⟩
  exact ⟨t, l, hrun, hret,
    ((processes_each_once (by decide) (fun x _ => ⟨x * x, rfl⟩) hrun).2.2.2 hret).2.1⟩

end Forkfun

end Mycelium
