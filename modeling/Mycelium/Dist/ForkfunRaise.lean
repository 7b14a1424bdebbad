import Mathlib.Algebra.Order.Group.Multiset
import Mycelium.Dist.Forkfun

/-!
# `forkfun` with a function that raises

A child whose function raises sends the exception to the parent and exits; the parent raises it as
soon as it takes it from the pipe.  Up to then the processes do the same as with the function that
returns its exceptions as values, which is `Job.caught`: the child that has exited stands for one
that waits, as it gets no message before its reply is taken.  So the invariant and the measure of
`forkfun` without exceptions hold for the states `State.caught`.
-/

namespace Mycelium

open Lib Finset

namespace Forkfun

variable {X E V : Type}

/-- The function catches its exceptions and returns them. -/
def Job.caught (j : Job X E V) : Job X Empty (Except E V) where
  function x := .ok (j.function x)
  sequence := j.sequence
  maxchildren := j.maxchildren

/-- An exception of the child is on the pipe to the parent. -/
def State.failed (s : State X E V) (c : ℕ) : Bool :=
  s.replies.any fun r => r.1 == c && !r.2.2.isOk

/-- A child that has exited because of an exception would wait for its next value. -/
def Work.resumed (failed : Bool) : Work X → Work X
  | .exited => if failed then .waiting else .exited
  | w => w

/-- The state in which the processes are if the function catches its exceptions. -/
def State.caught (s : State X E V) : State X Empty (Except E V) where
  child c := { s.child c with work := (s.child c).work.resumed (s.failed c) }
  spawned := s.spawned
  sequenceIter := s.sequenceIter
  sequenceIdx := s.sequenceIdx
  replies := s.replies.map fun r => (r.1, r.2.1, .ok r.2.2)
  finished := s.finished
  accumulated := s.accumulated.map .ok
  told := s.told
  waited := s.waited
  sent := s.sent

section

variable {j : Job X E V} {s t : State X E V} {c d : ℕ}

@[simp] lemma resumed_false (w : Work X) : w.resumed false = w := by
  cases w <;> rfl

lemma failed_eq_true : s.failed c = true ↔ ∃ i e, (c, i, .error e) ∈ s.replies := by
  rw [State.failed, List.any_eq_true]
  constructor
  · rintro ⟨⟨d, i, r⟩, hmem, hr⟩
    obtain ⟨hd, hr⟩ := Bool.and_eq_true_iff.1 hr
    obtain rfl : d = c := by simpa using hd
    cases r with
    | ok v => simp [Except.isOk, Except.toBool] at hr
    | error e => exact ⟨i, e, hmem⟩
  · rintro ⟨i, e, hmem⟩
    exact ⟨_, hmem, by simp [Except.isOk, Except.toBool]⟩

/-- The exception of a child is one of its assignments that are not answered. -/
lemma pending_lt_outstanding (h : s.failed c = true) :
    (s.caught.child c).pending.card < outstanding s.caught c := by
  obtain ⟨i, e, hmem⟩ := failed_eq_true.1 h
  have hpos : 0 < s.caught.replies.countP (·.1 = c) :=
    List.countP_pos_iff.2 ⟨_, List.mem_map_of_mem hmem, by simp⟩
  rw [outstanding]
  omega

lemma failed_of_outstanding (h : outstanding s.caught c = 0) : s.failed c = false := by
  rw [Bool.eq_false_iff]
  intro hfailed
  have hlt := pending_lt_outstanding hfailed
  omega

/-! ### The steps -/

lemma caught_setChild (s : State X E V) (c : ℕ) (ch : Child X) :
    (s.setChild c ch).caught =
      s.caught.setChild c { ch with work := ch.work.resumed (s.failed c) } := by
  simp only [State.caught, State.setChild, State.mk.injEq, and_self, and_true]
  funext d
  by_cases hd : d = c
  · subst hd
    simp only [Function.update_self]
    rfl
  · simp only [Function.update_of_ne hd]
    rfl

lemma caught_send (s : State X E V) (c : ℕ) (message : Option (ℕ × X)) :
    (s.send c message).caught = s.caught.send c message := by
  rw [State.send, caught_setChild]
  rfl

/-- A value that is taken from the pipe is no exception. -/
lemma caught_take {i : ℕ} {v : V} {rest : List (ℕ × ℕ × Except E V)}
    (hr : s.replies = (c, i, .ok v) :: rest) :
    ({ s with replies := rest } : State X E V).caught =
      { s.caught with replies := rest.map fun r => (r.1, r.2.1, .ok r.2.2) } := by
  have hfailed : ∀ d, ({ s with replies := rest } : State X E V).failed d = s.failed d := by
    intro d
    simp [State.failed, hr, Except.isOk, Except.toBool]
  simp only [State.caught, hfailed]

/-- The reply of a child, after which it waits or, with an exception, exits. -/
lemma caught_answer {i : ℕ} {r : Except E V} {after : Work X}
    (hafter : ∀ b, after.resumed (b || !r.isOk) = .waiting) :
    ((s.setChild c { s.child c with work := after }).reply [(c, i, r)]).caught =
      (s.caught.setChild c { s.caught.child c with work := .waiting }).reply [(c, i, .ok r)] := by
  simp only [State.caught, State.setChild, State.reply, List.map_append, List.map_singleton,
    State.mk.injEq, and_self, and_true]
  funext d
  by_cases hd : d = c
  · subst hd
    simp only [Function.update_self, State.failed, List.any_append, List.any_cons, List.any_nil,
      Bool.or_false, beq_self_eq_true, Bool.true_and, hafter]
  · have hcd : (c == d) = false := beq_false_of_ne (Ne.symm hd)
    simp only [Function.update_of_ne hd, State.failed, List.any_append, List.any_cons,
      List.any_nil, Bool.or_false, hcd, Bool.false_and]

/-- A child that was sent `None` has not failed. -/
lemma failed_of_none (h : Inv j.caught s.caught) (hnone : none ∈ (s.child c).inbox) :
    s.failed c = false := by
  have hok := h.child c
  rw [ChildOk] at hok
  split at hok
  · exact failed_of_outstanding hok.1
  · split at hok
    · exact absurd hnone hok.2.2.1
    · exact failed_of_outstanding hok.1

/-- A step of a child is its step with the exceptions caught. -/
lemma step_caught (h : Inv j.caught s.caught) (hstep : s.step j c = some t) :
    s.caught.step j.caught c = some t.caught := by
  have hchild : s.caught.child c =
      ⟨(s.child c).inbox, (s.child c).work.resumed (s.failed c)⟩ := rfl
  rw [State.step] at hstep ⊢
  rw [hchild]
  cases hwork : (s.child c).work with
  | waiting =>
      cases hinbox : (s.child c).inbox with
      | nil => simp [hwork, hinbox] at hstep
      | cons message rest =>
          cases message with
          | none =>
              simp only [hwork, hinbox, Option.some.injEq] at hstep
              have hfailed : s.failed c = false := failed_of_none h (by simp [hinbox])
              simp only [Work.resumed, ← hstep, caught_setChild, hfailed]
              rfl
          | some a =>
              obtain ⟨i, x⟩ := a
              simp only [hwork, hinbox, Option.some.injEq] at hstep
              simp only [Work.resumed, ← hstep, caught_setChild]
  | working i x =>
      simp only [hwork, Option.some.injEq] at hstep
      rw [← hstep, caught_answer]
      · simp only [Work.resumed, Job.caught]
        rw [hchild]
      · intro b
        cases j.function x <;> simp [Work.resumed, Except.isOk, Except.toBool]
  | exited => simp [hwork] at hstep
  | reaped => simp [hwork] at hstep

/-- `os.wait` returns no child that has failed: all replies were taken before. -/
lemma wait_caught (h : Inv j.caught s.caught) (hstep : s.wait j c = some t) :
    s.caught.wait j.caught c = some t.caught := by
  rw [State.wait] at hstep ⊢
  split at hstep
  · exact absurd hstep (by simp)
  · next hloop =>
      simp only [not_or, not_lt, not_le] at hloop
      obtain ⟨-, hspawned, hfinished, htold, hwaited⟩ := hloop
      have hreplies : s.replies = [] := List.map_eq_nil_iff.1 (h.idle hfinished).2.2.1
      have hfailed : ∀ d, s.failed d = false := fun d => by simp [State.failed, hreplies]
      have hchild : s.caught.child c = s.child c := by
        simp only [State.caught, hfailed, resumed_false]
      have hcond : ¬(s.caught.raised.isSome ∨ s.caught.spawned < j.caught.children ∨
          s.caught.finished < j.caught.sequence.length ∨ s.caught.told < s.caught.spawned ∨
          s.caught.spawned ≤ s.caught.waited) := by
        rintro (hr | hr | hr | hr | hr)
        · exact absurd hr (by simp [State.caught])
        · exact hspawned.not_gt hr
        · exact hfinished.not_gt hr
        · exact htold.not_gt hr
        · exact hwaited.not_ge hr
      rw [if_neg hcond, hchild]
      cases hwork : (s.child c).work with
      | exited =>
          simp only [hwork, Option.some.injEq] at hstep ⊢
          rw [← hstep, caught_setChild]
          rfl
      | _ => simp [hwork] at hstep

/-- The parent hands out a value. -/
lemma handOut_caught (hiter : s.sequenceIter ≠ []) (c : ℕ) :
    ∃ t, s.handOut c = .ok t ∧ t.raised = s.raised ∧ s.caught.handOut c = .ok t.caught := by
  obtain ⟨x, xs, hiter⟩ := List.exists_cons_of_ne_nil hiter
  rw [State.handOut, State.handOut, hiter, show s.caught.sequenceIter = x :: xs from hiter]
  refine ⟨_, rfl, rfl, ?_⟩
  simp only [caught_send]
  rfl

/-- The parent never runs out of values. -/
lemma iter_ne_nil (h : Inv j.caught s.caught) (hlt : s.sequenceIdx < j.sequence.length) :
    s.sequenceIter ≠ [] := by
  obtain ⟨x, xs, hiter, -⟩ := h.parent.next hlt 0
  exact List.ne_nil_of_length_pos (by rw [show s.sequenceIter = x :: xs from hiter]; simp)

lemma spawn_caught (h : Inv j.caught s.caught) (hlt : s.spawned < j.children) :
    ∃ t, s.spawn = .ok t ∧ t.raised = s.raised ∧ s.caught.spawn = .ok t.caught := by
  have hidx : s.sequenceIdx = s.spawned := (h.parent.spawning hlt).1
  have hle : j.children ≤ j.sequence.length := min_le_right _ _
  have hiter : s.sequenceIter ≠ [] := iter_ne_nil h (by omega)
  exact handOut_caught (s := { s with spawned := s.spawned + 1 }) hiter s.spawned

/-- The parent takes a value from the pipe, or an exception, which it raises. -/
lemma collect_caught (h : Inv j.caught s.caught) {y : Except (Raised E) (State X E V)}
    (hy : s.collect j = some y) :
    (∃ c i e rest, s.replies = (c, i, .error e) :: rest ∧ y = .error (.value e)) ∨
      ∃ t, y = .ok t ∧ t.raised = s.raised ∧ s.caught.collect j.caught = some (.ok t.caught) := by
  rw [State.collect] at hy
  cases hr : s.replies with
  | nil => simp [hr] at hy
  | cons r rest =>
      obtain ⟨c, i, r⟩ := r
      cases r with
      | error e =>
          simp only [hr, Option.some.injEq] at hy
          exact .inl ⟨c, i, e, rest, rfl, hy.symm⟩
      | ok v =>
          refine .inr ?_
          have hcaught : s.caught.replies =
              (c, i, .ok (.ok v)) :: rest.map fun r => (r.1, r.2.1, .ok r.2.2) := by
            rw [State.caught, hr, List.map_cons]
          simp only [hr] at hy
          rw [State.collect, hcaught]
          simp only [← caught_take hr]
          split at hy
          · next hlt =>
              have hiter : s.sequenceIter ≠ [] := iter_ne_nil h hlt
              obtain ⟨u, hu, hraised, hcaught⟩ :=
                handOut_caught (s := { s with replies := rest }) hiter c
              rw [hu] at hy
              refine ⟨u.accumulate v, (Option.some.inj hy).symm, hraised, ?_⟩
              rw [if_pos (show s.caught.sequenceIdx < j.caught.sequence.length from hlt), hcaught]
              simp [Except.map, State.accumulate, State.caught, State.failed]
          · next hlt =>
              refine ⟨_, (Option.some.inj hy).symm, rfl, ?_⟩
              rw [if_neg (show ¬s.caught.sequenceIdx < j.caught.sequence.length from hlt)]
              simp [State.accumulate, State.caught, State.failed]

/-- The parent takes an exception from the pipe and raises it. -/
def Raises (s t : State X E V) : Prop :=
  s.raised = none ∧ ∃ c i e rest, s.replies = (c, i, .error e) :: rest ∧
    t = { s with raised := some (.value e) }

/-- A step of the parent is its step with the exceptions caught, or raises. -/
lemma parent_caught (h : Inv j.caught s.caught) (hstep : s.parent j = some t) :
    Raises s t ∨ s.raised = none ∧ t.raised = none ∧
      s.caught.parent j.caught = some t.caught := by
  rw [State.parent] at hstep
  split at hstep
  · exact absurd hstep (by simp)
  · next hraised =>
      have hraised : s.raised = none := by simpa using hraised
      rw [State.parent, if_neg (show ¬s.caught.raised.isSome = true by simp [State.caught])]
      split at hstep
      · next hspawned =>
          rw [if_pos (show s.caught.spawned < j.caught.children from hspawned)]
          obtain ⟨u, hu, hur, hcaught⟩ := spawn_caught h hspawned
          rw [hu] at hstep
          obtain rfl : u = t := Option.some.inj hstep
          exact .inr ⟨hraised, hur.trans hraised, by rw [hcaught]; rfl⟩
      · next hspawned =>
          rw [if_neg (show ¬s.caught.spawned < j.caught.children from hspawned)]
          split at hstep
          · next hfinished =>
              rw [if_pos (show s.caught.finished < j.caught.sequence.length from hfinished)]
              obtain ⟨y, hy, hsettle⟩ := Option.map_eq_some_iff.1 hstep
              rcases collect_caught h hy with ⟨c, i, e, rest, hr, rfl⟩ | ⟨u, rfl, hur, hcaught⟩
              · exact .inl ⟨hraised, c, i, e, rest, hr, hsettle.symm⟩
              · obtain rfl : u = t := hsettle
                exact .inr ⟨hraised, hur.trans hraised, by rw [hcaught]; rfl⟩
          · next hfinished =>
              rw [if_neg (show ¬s.caught.finished < j.caught.sequence.length from hfinished)]
              split at hstep
              · next htold =>
                  rw [if_pos (show s.caught.told < s.caught.spawned from htold)]
                  obtain rfl := Option.some.inj hstep
                  exact .inr ⟨hraised, hraised, by rw [caught_send]; rfl⟩
              · exact absurd hstep (by simp)

lemma step_replies (hstep : s.step j c = some t) :
    t.raised = s.raised ∧ ∃ l, t.replies = s.replies ++ l := by
  rw [State.step] at hstep
  cases hwork : (s.child c).work with
  | waiting =>
      cases hinbox : (s.child c).inbox with
      | nil => simp [hwork, hinbox] at hstep
      | cons message rest =>
          cases message <;>
          · simp only [hwork, hinbox, Option.some.injEq] at hstep
            exact hstep ▸ ⟨rfl, [], (List.append_nil _).symm⟩
  | working i x =>
      simp only [hwork, Option.some.injEq] at hstep
      exact hstep ▸ ⟨rfl, _, rfl⟩
  | exited => simp [hwork] at hstep
  | reaped => simp [hwork] at hstep

lemma wait_raised (hstep : s.wait j c = some t) : s.raised = none ∧ t.raised = none := by
  rw [State.wait] at hstep
  split at hstep
  · exact absurd hstep (by simp)
  · next hloop =>
      have hraised : s.raised = none := by
        have := (not_or.1 hloop).1
        simpa using this
      cases hwork : (s.child c).work with
      | exited =>
          simp only [hwork, Option.some.injEq] at hstep
          exact hstep ▸ ⟨hraised, hraised⟩
      | _ => simp [hwork] at hstep

/-- A step raises, or is the step with the exceptions caught; after an exception was raised only
children take turns. -/
lemma exec_caught (h : Inv j.caught s.caught) {e : Turn} {o : Unit}
    (hexec : (machine j).exec s e = some (o, t)) :
    Raises s t ∨ (machine j.caught).exec s.caught e = some (o, t.caught) ∧
      t.raised = s.raised ∧ (s.raised.isSome → ∃ l, t.replies = s.replies ++ l) := by
  cases e with
  | parent =>
      have hstep : s.parent j = some t := by simpa [machine] using hexec
      rcases parent_caught h hstep with hraises | ⟨hraised, htr, hcaught⟩
      · exact .inl hraises
      · refine .inr ⟨by simp [machine, hcaught], htr.trans hraised.symm, ?_⟩
        simp [hraised]
  | child c =>
      obtain ⟨hc, hstep⟩ : c < s.spawned ∧ s.step j c = some t := by simpa [machine] using hexec
      obtain ⟨hraised, hreplies⟩ := step_replies hstep
      refine .inr ⟨?_, hraised, fun _ => hreplies⟩
      simp [machine, step_caught h hstep, show c < s.caught.spawned from hc]
  | wait c =>
      obtain ⟨hc, hstep⟩ : c < s.spawned ∧ s.wait j c = some t := by simpa [machine] using hexec
      obtain ⟨hraised, htr⟩ := wait_raised hstep
      refine .inr ⟨?_, htr.trans hraised.symm, ?_⟩
      · simp [machine, wait_caught h hstep, show c < s.caught.spawned from hc]
      · simp [hraised]

/-! ### Runs -/

/-- What holds after any steps: the invariant with the exceptions caught, and the exception that
was raised is the first one on the pipe. -/
structure Caught (j : Job X E V) (s : State X E V) : Prop where
  inv : Inv j.caught s.caught
  raised : ∀ r, s.raised = some r →
    ∃ c i e rest, r = .value e ∧ s.replies = (c, i, .error e) :: rest

/-- The number of steps to the end. -/
def stepsLeft (j : Job X E V) (s : State X E V) : ℕ :=
  remaining j.caught s.caught + if s.raised.isSome then 0 else 1

lemma caught_start (j : Job X E V) : j.start.caught = j.caught.start := by
  simp [State.caught, Job.start, Job.caught, Work.resumed]

lemma Caught.exec (h : Caught j s) {e : Turn} {o : Unit}
    (hexec : (machine j).exec s e = some (o, t)) : Caught j t ∧ stepsLeft j t < stepsLeft j s := by
  rcases exec_caught h.inv hexec with
    ⟨hraised, c, i, x, rest, hr, rfl⟩ | ⟨hcaught, hraised, hreplies⟩
  · refine ⟨⟨h.inv, ?_⟩, ?_⟩
    · intro r hr'
      exact ⟨c, i, x, rest, (Option.some.inj hr').symm, hr⟩
    · rw [stepsLeft, stepsLeft, hraised]
      exact Nat.lt_succ_self _
  · obtain ⟨hinv, hremaining⟩ := h.inv.exec (fun x _ => ⟨j.function x, rfl⟩) hcaught
    refine ⟨⟨hinv, ?_⟩, ?_⟩
    · intro r hr
      rw [hraised] at hr
      obtain ⟨c, i, e, rest, he, hrest⟩ := h.raised r hr
      obtain ⟨l, hl⟩ := hreplies (by rw [hr]; rfl)
      exact ⟨c, i, e, rest ++ l, he, by rw [hl, hrest, List.cons_append]⟩
    · rw [stepsLeft, stepsLeft, hraised]
      omega

lemma caught_of_run {l : List (Turn × Unit)}
    (hrun : Machine.Run (machine j) Machine.Free j.start l t) :
    Caught j t ∧ l.length ≤ 3 * j.sequence.length + 4 * j.children + 1 := by
  have hstart : Caught j j.start :=
    ⟨caught_start j ▸ inv_start j.caught, fun r hr => by simp [Job.start] at hr⟩
  have hlength := hrun.length_add_le (μ := stepsLeft j) (fun _ _ _ _ h _ hexec => h.exec hexec)
    hstart
  refine ⟨hrun.invariant (fun _ _ _ _ h _ hexec => (h.exec hexec).1) hstart, ?_⟩
  have hsteps : stepsLeft j j.start = 3 * j.sequence.length + 4 * j.children + 1 := by
    rw [stepsLeft, caught_start]
    simp [remaining, Job.start, Job.caught, Job.children]
    omega
  omega

/-- The values of the accumulator are results of different elements. -/
lemma Caught.accumulated_subperm (h : Caught j s) :
    (s.accumulated.map Except.ok).Subperm (j.sequence.map j.function) := by
  have hledger := h.inv.ledger
  rw [accounted, add_assoc] at hledger
  have hle : Multiset.map (Except.ok : Except E V → Except Empty (Except E V))
        (Multiset.ofList (s.accumulated.map Except.ok)) ≤
      Multiset.map Except.ok
        (Multiset.ofList ((j.sequence.take s.sequenceIdx).map j.function)) := by
    rw [Multiset.map_coe, Multiset.map_coe, List.map_map (l := j.sequence.take s.sequenceIdx)]
    exact (Multiset.le_add_right _ _).trans hledger.le
  have hsub := (Multiset.map_le_map_iff fun _ _ => Except.ok.inj).1 hle
  exact (Multiset.coe_le.1 hsub).trans ((List.take_sublist _ _).map _).subperm

/-- A reply that was not taken is the result of an element. -/
lemma Caught.error_mem (h : Caught j s) {i : ℕ} {e : E} (hmem : (c, i, .error e) ∈ s.replies) :
    ∃ x ∈ j.sequence, j.function x = .error e := by
  have hin : Except.ok (.error e) ∈ accounted j.caught s.caught := by
    rw [accounted, Multiset.mem_add]
    refine .inr ?_
    simp only [State.caught, List.map_map, Multiset.mem_coe, List.mem_map]
    exact ⟨_, hmem, rfl⟩
  rw [h.inv.ledger] at hin
  obtain ⟨x, hx, hfx⟩ := List.mem_map.1 (Multiset.mem_coe.1 hin)
  exact ⟨x, List.mem_of_mem_take hx, Except.ok.inj hfx⟩

/-- While there are replies, the parent has not come to the end of its loop. -/
lemma Caught.collecting (h : Caught j s) (hr : s.replies ≠ []) :
    s.finished < j.sequence.length ∧ s.told = 0 := by
  have hfinished : s.finished < j.sequence.length := by
    by_contra hle
    exact hr (List.map_eq_nil_iff.1 (h.inv.idle (Nat.le_of_not_lt hle)).2.2.1)
  exact ⟨hfinished, h.inv.parent.told_eq_zero (.inr hfinished)⟩

/-- Before a child is sent `None`, no child was waited for. -/
lemma Caught.waited_eq_zero (h : Caught j s) (htold : s.told = 0) : s.waited = 0 := by
  refine h.inv.waited.trans (sum_eq_zero fun c hc => ?_)
  have hok := h.inv.child c
  rw [ChildOk, if_neg (by rw [show s.caught.told = 0 from htold]; omega),
    if_pos (mem_range.1 hc)] at hok
  rcases hok.2.2.2 with hwork | ⟨i, x, hwork⟩ <;> rw [hwork] <;> rfl

/-- With nothing on the pipe no child has failed. -/
lemma caught_child (hr : s.replies = []) (c : ℕ) : s.caught.child c = s.child c := by
  have hfailed : s.failed c = false := by simp [State.failed, hr]
  simp only [State.caught, hfailed, resumed_false]

/-- If no process can go on and nothing was raised, all replies were taken. -/
lemma Caught.replies_eq_nil (h : Caught j s) (hraised : s.raised = none)
    (hstuck : s.parent j = none) : s.replies = [] := by
  by_contra hr
  obtain ⟨hfinished, -⟩ := h.collecting hr
  rw [State.parent, if_neg (by simp [hraised])] at hstuck
  split at hstuck
  · exact absurd hstuck (by simp)
  · rw [Option.map_eq_none_iff, State.collect] at hstuck
    obtain ⟨r, rest, hr⟩ := List.exists_cons_of_ne_nil hr
    obtain ⟨c, i, r⟩ := r
    rw [hr] at hstuck
    cases r with
    | error e => exact absurd hstuck (by simp)
    | ok v =>
        simp only at hstuck
        split at hstuck <;> exact absurd hstuck (by simp)

lemma step_eq_none_iff :
    s.step j c = none ↔ s.child c = ⟨[], .waiting⟩ ∨ (s.child c).work = .exited ∨
      (s.child c).work = .reaped := by
  rw [State.step]
  obtain ⟨inbox, work⟩ := s.child c
  cases work with
  | waiting =>
      cases inbox with
      | nil => simp
      | cons message rest => cases message <;> simp
  | working i x => simp
  | exited => simp
  | reaped => simp

/-- With nothing on the pipe to the parent, the processes are stuck with the exceptions caught. -/
lemma stuck_caught (hraised : s.raised = none) (hr : s.replies = [])
    (hstuck : ∀ e, (machine j).exec s e = none) (e : Turn) :
    (machine j.caught).exec s.caught e = none := by
  have hstuck := hstuck e
  cases e with
  | parent =>
      have hparent : s.parent j = none := Option.map_eq_none_iff.1 hstuck
      rw [State.parent, if_neg (by simp [hraised])] at hparent
      refine Option.map_eq_none_iff.2 ?_
      rw [State.parent, if_neg (by simp [State.caught])]
      split at hparent
      · exact absurd hparent (by simp)
      · next hspawned =>
          rw [if_neg (show ¬s.caught.spawned < j.caught.children from hspawned)]
          split at hparent
          · next hfinished =>
              rw [if_pos (show s.caught.finished < j.caught.sequence.length from hfinished),
                State.collect, show s.caught.replies = [] by simp [State.caught, hr]]
              rfl
          · next hfinished =>
              rw [if_neg (show ¬s.caught.finished < j.caught.sequence.length from hfinished)]
              split at hparent
              · exact absurd hparent (by simp)
              · next htold => exact if_neg htold
  | child c =>
      simp only [machine] at hstuck ⊢
      split
      · next hc =>
          rw [if_pos (show c < s.spawned from hc), Option.map_eq_none_iff,
            step_eq_none_iff] at hstuck
          rwa [Option.map_eq_none_iff, step_eq_none_iff, caught_child hr]
      · rfl
  | wait c =>
      simp only [machine] at hstuck ⊢
      split
      · next hc =>
          rw [if_pos (show c < s.spawned from hc), Option.map_eq_none_iff, State.wait] at hstuck
          rw [Option.map_eq_none_iff, State.wait, caught_child hr]
          split
          · rfl
          · next hloop =>
              simp only [not_or] at hloop
              rw [if_neg (by simp only [not_or]; exact ⟨by simp [hraised], hloop.2⟩)] at hstuck
              cases hwork : (s.child c).work with
              | exited => simp [hwork] at hstuck
              | _ => simp
      · rfl

/-- If no process can go on and nothing was raised, `forkfun` has returned. -/
lemma Caught.returned (h : Caught j s) (hm : 1 ≤ j.maxchildren) (hraised : s.raised = none)
    (hstuck : ∀ e, (machine j).exec s e = none) :
    Returned j s ∧ ∀ x ∈ j.sequence, ∃ v, j.function x = .ok v := by
  have hr := h.replies_eq_nil hraised (Option.map_eq_none_iff.1 (hstuck .parent))
  have hret : Returned j.caught s.caught :=
    h.inv.returned (fun x _ => ⟨j.function x, rfl⟩) hm (stuck_caught hraised hr hstuck)
  refine ⟨⟨hraised, hret.spawned, hret.finished, hret.told, hret.waited⟩, fun x hx => ?_⟩
  -- every result was accumulated
  obtain ⟨-, hidx, -, hpending⟩ := h.inv.idle hret.finished.ge
  have hzero : ∑ c ∈ range s.spawned, (s.caught.child c).pending.map j.caught.function = 0 :=
    sum_eq_zero fun c hc => by rw [hpending c (mem_range.1 hc), Multiset.map_zero]
  have hin : j.caught.function x ∈ accounted j.caught s.caught := by
    rw [h.inv.ledger, hidx, List.take_length, Multiset.mem_coe]
    exact List.mem_map_of_mem hx
  rw [accounted, show s.caught.spawned = s.spawned from rfl, hzero] at hin
  simp only [State.caught, hr, List.map_nil, Multiset.coe_nil, add_zero, Multiset.mem_coe,
    List.mem_map] at hin
  obtain ⟨r, ⟨v, -, rfl⟩, hv⟩ := hin
  exact ⟨v, (Except.ok.inj hv).symm⟩

/-- What is left of a child when the parent has raised an exception. -/
lemma Caught.orphan (h : Caught j s) (htold : s.told = 0) (hc : c < s.spawned)
    (hstuck : s.step j c = none) :
    s.child c = ⟨[], .waiting⟩ ∨
      s.child c = ⟨[], .exited⟩ ∧ ∃ i e, (c, i, .error e) ∈ s.replies := by
  have hok := h.inv.child c
  rw [ChildOk, if_neg (by rw [show s.caught.told = 0 from htold]; omega),
    if_pos (show c < s.caught.spawned from hc)] at hok
  obtain ⟨hout, -, hserving⟩ := hok
  have hwork := hserving.2
  simp only [State.caught] at hwork
  rcases step_eq_none_iff.1 hstuck with hwaiting | hexited | hreaped
  · exact .inl hwaiting
  · -- a child that has exited and serves has failed, and its exception is all it had to do
    refine .inr ?_
    have hfailed : s.failed c = true := by
      by_contra hfailed
      rw [hexited, Bool.eq_false_iff.2 hfailed] at hwork
      simp [Work.resumed] at hwork
    have hlt := pending_lt_outstanding hfailed
    have hpending : (s.caught.child c).pending = 0 := Multiset.card_eq_zero.1 (by omega)
    have hchild := congrArg Child.inbox (hserving.eq_of_pending hpending)
    refine ⟨?_, failed_eq_true.1 hfailed⟩
    rw [← hexited, ← show (s.child c).inbox = [] from hchild]
  · rw [hreaped] at hwork
    simp [Work.resumed] at hwork

end

/-- Whatever the order in which the processes take their turns: no result is given to the
accumulator twice, and every run comes to its end.  If the function raises no exception, then at
the end `forkfun` has returned.  If it raises one for some element, then at the end the parent has
raised the first exception on the pipe; it has sent `None` to no child and has waited for none, and
every child is left reading from its pipe, or has exited after an exception of its own. -/
theorem ends_or_raises {j : Job X E V} {t : State X E V} {l : List (Turn × Unit)}
    (hm : 1 ≤ j.maxchildren) (hrun : Machine.Run (machine j) Machine.Free j.start l t) :
    (t.accumulated.map Except.ok).Subperm (j.sequence.map j.function) ∧
      l.length ≤ 3 * j.sequence.length + 4 * j.children + 1 ∧
      (∀ r, t.raised = some r → ∃ x ∈ j.sequence, ∃ e, j.function x = .error e ∧ r = .value e) ∧
      ((∀ e, (machine j).exec t e = none) →
        (Returned j t ∧ ∀ x ∈ j.sequence, ∃ v, j.function x = .ok v) ∨
        (∃ c i e rest, t.raised = some (.value e) ∧ t.replies = (c, i, .error e) :: rest) ∧
          t.told = 0 ∧ t.waited = 0 ∧ ∀ c < t.spawned, t.child c = ⟨[], .waiting⟩ ∨
            t.child c = ⟨[], .exited⟩ ∧ ∃ i e, (c, i, .error e) ∈ t.replies) := by
  obtain ⟨hcaught, hlength⟩ := caught_of_run hrun
  refine ⟨hcaught.accumulated_subperm, hlength, fun r hr => ?_, fun hstuck => ?_⟩
  · obtain ⟨c, i, e, rest, rfl, hreplies⟩ := hcaught.raised r hr
    obtain ⟨x, hx, hfx⟩ := hcaught.error_mem (hreplies ▸ List.mem_cons_self)
    exact ⟨x, hx, e, hfx, rfl⟩
  · cases hraised : t.raised with
    | none => exact .inl (hcaught.returned hm hraised hstuck)
    | some r =>
        obtain ⟨c, i, e, rest, rfl, hreplies⟩ := hcaught.raised r hraised
        obtain ⟨-, htold⟩ := hcaught.collecting (by rw [hreplies]; simp)
        refine .inr ⟨⟨c, i, e, rest, rfl, hreplies⟩, htold, hcaught.waited_eq_zero htold, ?_⟩
        intro d hd
        refine hcaught.orphan htold hd ?_
        have hnone := hstuck (.child d)
        simp only [machine, if_pos hd, Option.map_eq_none_iff] at hnone
        exact hnone

/-- Three values for two children, of which the second one gets a value without a quotient. -/
def quotients : Job ℕ Unit ℕ where
  function x := if x = 0 then .error () else .ok (12 / x)
  sequence := [3, 0, 2]
  maxchildren := 2

theorem ends_or_raises_quotients : ∃ (t : State ℕ Unit ℕ) (l : _),
    Machine.Run (machine quotients) Machine.Free quotients.start l t ∧
      t.raised = some (.value ()) ∧ t.accumulated = [4] ∧ t.waited = 0 ∧
      ∀ c < 2, t.child c = ⟨[], .waiting⟩ ∨ t.child c = ⟨[], .exited⟩ := by
  obtain ⟨l, t, hrun, ht⟩ := Machine.exists_run_of_any
    (M := machine quotients) (G := Machine.Free) (s := quotients.start)
    [.parent, .parent, .child 0, .child 0, .child 1, .child 1, .parent, .parent, .child 0,
      .child 0]
    (p := fun x => decide (x.2.raised = some (.value ()) ∧ x.2.accumulated = [4] ∧
      x.2.spawned = 2 ∧ (List.range 2).all fun c => (x.2.step quotients c).isNone))
    (fun _ _ _ => trivial) (by decide)
  obtain ⟨hraised, haccumulated, hspawned, hstep⟩ :
      t.raised = some (.value ()) ∧ t.accumulated = [4] ∧ t.spawned = 2 ∧
        (List.range 2).all fun c => (t.step quotients c).isNone := of_decide_eq_true ht
  have hstuck : ∀ e, (machine quotients).exec t e = none := by
    intro e
    cases e with
    | parent => simp [machine, State.parent, hraised]
    | child c =>
        simp only [machine, hspawned]
        split
        · next hc =>
            rw [Option.isNone_iff_eq_none.1 (List.all_eq_true.1 hstep c (List.mem_range.2 hc))]
            rfl
        · rfl
    | wait c => simp [machine, State.wait, hraised]
  rcases (ends_or_raises (by decide) hrun).2.2.2 hstuck with ⟨hret, -⟩ | ⟨-, -, hwaited, hchild⟩
  · exact absurd (hret.raised.symm.trans hraised) (by simp)
  · refine ⟨t, l, hrun, hraised, haccumulated, hwaited, fun c hc => ?_⟩
    exact (hchild c (hspawned ▸ hc)).imp_right And.left

end Forkfun

end Mycelium
