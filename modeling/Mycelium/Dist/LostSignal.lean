import Mycelium.Dist.Children

/-!
# The lost signal of the local indexer

`index` tests `nchilds` and then calls `pause()`.  A signal that is handled in between does not end
the `pause()`, and if it was the last one then nothing does.  The indexer can hang in this way with
any number of processors.  It is also the only way besides a call of `fork` that fails and a
decrement that is lost within the increment: without these the walk comes to its end.
-/

namespace Mycelium

open Lib

namespace LocalIndexer

/-! ### Runs without a lost signal -/

/-- The parent is between the test and `pause`, or within the increment. -/
def Pc.critical : Pc → Bool
  | .pause _ => true
  | .store _ => true
  | _ => false

namespace State

variable {P : ℤ} {s t : State} {i : Move} {o : Option Str}

/-- The steps of a run in which all calls of `fork` succeed and no signal is handled between the
test and `pause` or within the increment. -/
def Undisturbed (s : State) : Move → Prop
  | .main forks => forks = true
  | .deliver => s.pc.critical = false
  | _ => True

instance (s : State) (i : Move) : Decidable (s.Undisturbed i) :=
  match i with
  | .main forks => inferInstanceAs (Decidable (forks = true))
  | .deliver => inferInstanceAs (Decidable (s.pc.critical = false))
  | .exit _ => inferInstanceAs (Decidable True)
  | .reap => inferInstanceAs (Decidable True)

/-- What holds in such a run. -/
structure Exact (P : ℤ) (s : State) : Prop extends Inv P s where
  le_unreaped : s.pc.counted s.nchilds ≤ s.unreaped
  /-- Not all children are zombies without a signal. -/
  covered : (s.zombies.length : ℤ) < P ∨ s.pending = true ∨ s.reaper = .wait
  full : ∀ path, s.pc = .pause path ∨ s.pc = .paused path → P ≤ s.nchilds
  idle_of_pause : ∀ path, s.pc = .pause path → s.reaper = .idle
  idle_of_store : ∀ n, s.pc = .store n → s.reaper = .idle

lemma exact_start (hP : 0 < P) (tree : FileTree) : Exact P (start tree) where
  toInv := inv_start tree
  le_unreaped := le_rfl
  covered := Or.inl hP
  full _ h := by rcases h with h | h <;> exact Pc.noConfusion h
  idle_of_pause _ h := Pc.noConfusion h
  idle_of_store _ h := Pc.noConfusion h

lemma Exact.step (h : Exact P s) (hP : 0 < P) (hg : s.Undisturbed i) (hstep : Step P s i o t) :
    Exact P t := by
  have hinv := h.toInv.step hstep
  have hle := h.le_unreaped
  rw [unreaped] at hle
  cases hstep with
  | walk forks hidle hpc =>
      obtain ⟨hn, hpending, hreaper, hrunning, hzombies, hpc'⟩ := walk_frame hpc
      rw [hpc] at hle
      refine ⟨hinv, ?_, ?_, ?_, ?_, ?_⟩
      · rw [unreaped, hrunning, hzombies, hreaper, hn]
        rcases hpc' with hpc' | hpc' | ⟨path, hpc'⟩ <;> rw [hpc'] <;> exact hle
      · rw [hzombies, hpending, hreaper]
        exact h.covered
      · rcases hpc' with hpc' | hpc' | ⟨path, hpc'⟩ <;> simp [hpc']
      · rcases hpc' with hpc' | hpc' | ⟨path, hpc'⟩ <;> simp [hpc']
      · rcases hpc' with hpc' | hpc' | ⟨path, hpc'⟩ <;> simp [hpc']
  | full forks path hidle hpc hfull =>
      rw [hpc] at hle
      exact ⟨hinv, hle, h.covered, fun _ _ => hfull, fun _ _ => hidle, by simp⟩
  | room forks path hidle hpc hroom =>
      rw [hpc] at hle
      exact ⟨hinv, hle, h.covered, by simp, by simp, by simp⟩
  | pause forks path hidle hpc =>
      rw [hpc] at hle
      exact ⟨hinv, hle, h.covered, fun _ _ => h.full path (Or.inl hpc), by simp, by simp⟩
  | fork path hidle hpc =>
      refine ⟨hinv, ?_, h.covered, by simp, by simp, by simp⟩
      rw [hpc] at hle
      simp only [Pc.counted, unreaped, List.length_append, List.length_singleton] at hle ⊢
      omega
  | noFork path hidle hpc => exact absurd hg Bool.false_ne_true
  | load forks hidle hpc =>
      rw [hpc] at hle
      exact ⟨hinv, hle, h.covered, by simp, by simp, fun _ _ => hidle⟩
  | store forks n hidle hpc =>
      rw [hpc] at hle
      exact ⟨hinv, hle, h.covered, by simp, by simp, by simp⟩
  | exit n child hchild =>
      have hlt : n < s.running.length := (List.getElem?_eq_some_iff.1 hchild).1
      refine ⟨hinv, ?_, Or.inr (Or.inl rfl), h.full, h.idle_of_pause, h.idle_of_store⟩
      simp only [unreaped, List.length_eraseIdx_of_lt hlt, List.length_append,
        List.length_singleton]
      omega
  | deliver hpending hidle hpc =>
      rw [hidle] at hle
      have hcritical : s.pc.critical = false := hg
      refine ⟨hinv, hle, Or.inr (Or.inr rfl), h.full, fun path hpc => ?_, fun n hpc => ?_⟩
      · rw [hpc] at hcritical
        exact absurd hcritical (by simp [Pc.critical])
      · rw [hpc] at hcritical
        exact absurd hcritical (by simp [Pc.critical])
  | reap child zombies hwait hzombies =>
      have hbounded := h.counted.trans h.bounded
      rw [max_eq_left hP.le, unreaped] at hbounded
      rw [hwait, hzombies, List.length_cons] at hle hbounded
      simp only [Reaper.reaped, reduceCtorEq, if_false] at hle hbounded
      refine ⟨hinv, ?_, Or.inl ?_, h.full, fun path hpc => ?_, fun n hpc => ?_⟩
      · simp only [unreaped, Reaper.reaped, if_true]
        omega
      · simp only
        omega
      · exact absurd (hwait.symm.trans (h.idle_of_pause path hpc)) (by decide)
      · exact absurd (hwait.symm.trans (h.idle_of_store n hpc)) (by decide)
  | noChild hwait hzombies hrunning => exact absurd rfl hinv.caught
  | decrement hdecrement =>
      have hpause : ∀ path, s.pc ≠ .pause path := fun path hpc =>
        absurd (hdecrement.symm.trans (h.idle_of_pause path hpc)) (by decide)
      have hstore : ∀ n, s.pc ≠ .store n := fun n hpc =>
        absurd (hdecrement.symm.trans (h.idle_of_store n hpc)) (by decide)
      rw [hdecrement] at hle
      simp only [Reaper.reaped, if_true] at hle
      refine ⟨hinv, ?_, ?_, ?_, fun _ _ => rfl, fun _ _ => rfl⟩
      · simp only [Pc.counted_resume, Pc.counted_sub_one hstore, unreaped, Reaper.reaped,
          reduceCtorEq, if_false]
        omega
      · rcases h.covered with hlt | hpending | hwait
        · exact Or.inl hlt
        · exact Or.inr (Or.inl hpending)
        · exact absurd (hdecrement.symm.trans hwait) (by decide)
      · intro path hpc
        exact absurd (resume_eq_pause hpc) (hpause path)

/-- In such a run something can go on until the walk is over. -/
lemma Exact.progress (h : Exact P s) (hpc : s.pc ≠ .returned) :
    ∃ i, s.Undisturbed i ∧ ((machine P).exec s i).isSome = true := by
  cases hreaper : s.reaper with
  | idle =>
      by_cases hpaused : ∃ path, s.pc = .paused path
      · obtain ⟨path, hpaused⟩ := hpaused
        by_cases hpending : s.pending = true
        · refine ⟨.deliver, by rw [Undisturbed, hpaused]; rfl, ?_⟩
          simp [machine, deliver, hpending, hreaper, hpaused]
        · -- a child that still runs will end and wake the parent
          refine ⟨.exit 0, trivial, ?_⟩
          have hfull := h.full path (Or.inr hpaused)
          have hle := h.le_unreaped
          rw [unreaped, hpaused, hreaper] at hle
          simp only [Pc.counted, Reaper.reaped, reduceCtorEq, if_false] at hle
          rcases h.covered with hlt | hsignal | hwait
          · have hpos : 0 < s.running.length := by omega
            simp [machine, exit, List.getElem?_eq_getElem hpos]
          · exact absurd hsignal hpending
          · exact absurd (hreaper.symm.trans hwait) (by decide)
      · refine ⟨.main true, rfl, ?_⟩
        have hindex : (s.index P true).isSome = true := by
          rw [index]
          cases hp : s.pc <;> simp_all
        simpa [machine, hreaper] using hindex
  | wait =>
      refine ⟨.reap, trivial, ?_⟩
      have hsignalled := h.signalled
      cases hzombies : s.zombies with
      | nil =>
          rw [hreaper, hzombies] at hsignalled
          simp [Reaper.waiting] at hsignalled
      | cons child zombies => simp [machine, chldReaper, hreaper, hzombies]
  | decrement => exact ⟨.reap, trivial, by simp [machine, chldReaper, hreaper]⟩
  | threw => exact absurd hreaper h.caught

end State

/-- The walk is over when nothing is left of it. -/
lemma todo_of_returned {P : ℤ} {s t : State} {i : Move} {o : Option Str} (hstep : Step P s i o t)
    (h : s.pc = .returned → s.todo = []) (ht : t.pc = .returned) : t.todo = [] := by
  cases hstep with
  | walk forks hidle hpc =>
      rw [State.walk] at ht ⊢
      split at ht <;> simp_all
      split at ht <;> simp_all
  | decrement hdecrement =>
      refine h ?_
      cases hpc : s.pc <;> simp_all [State.resume]
  | exit n child hchild => exact h ht
  | deliver hpending hidle hpc => exact h ht
  | reap child zombies hwait hzombies => exact h ht
  | noChild hwait hzombies hrunning => exact h ht
  | _ => exact absurd ht (by simp)

/-- If no call of `fork` fails and no signal is handled between the test and `pause` or within the
increment, then the indexer does not hang: something can go on until the walk is over, which is
after a bounded number of steps, and then a child was forked for every file. -/
theorem finishes {P : ℤ} {tree : FileTree} {s : State} {l : List (Move × Option Str)} (hP : 0 < P)
    (h : (machine P).Run State.Undisturbed (State.start tree) l s) :
    l.length ≤ 12 * tree.size + 1 ∧ (s.pc = .returned → attempts l = tree.jobs) ∧
      (s.pc ≠ .returned → ∃ i, s.Undisturbed i ∧ ((machine P).exec s i).isSome = true) := by
  have hexact : s.Exact P := h.invariant
    (fun _ _ _ _ hs hg hexec => hs.step hP hg (step_of_exec hexec)) (State.exact_start hP tree)
  have htodo := h.invariant (I := fun s => s.pc = .returned → s.todo = [])
    (fun _ _ _ _ hs _ hexec => todo_of_returned (step_of_exec hexec) hs) (by simp [State.start])
  refine ⟨(length_le_stepsLeft h).trans_eq (stepsLeft_start tree), fun hpc => ?_, hexact.progress⟩
  have hremaining : s.remaining = [] := by rw [State.remaining, hpc, htodo hpc]; rfl
  have hjobs := attempts_append_remaining h
  rwa [hremaining, List.append_nil, remaining_start] at hjobs

theorem finishes_two :
    ∃ l s, (machine 1).Run State.Undisturbed (State.start twoFiles) l s ∧ l.length ≤ 37 ∧
      s.pc = .returned ∧ attempts l = [lit "a.pdf", lit "b.PDF"] := by
  obtain ⟨l, s, hrun, hpc⟩ := Machine.exists_run_of_any (M := (machine 1).guard State.Undisturbed)
    (G := Machine.Free) (s := State.start twoFiles)
    (p := fun x => decide (x.2.pc = .returned)) twoMoves (fun _ _ _ => trivial) (by decide +kernel)
  have hrun := Machine.run_of_guard hrun
  have hpc : s.pc = .returned := of_decide_eq_true hpc
  obtain ⟨hlength, hjobs, -⟩ := finishes (by decide) hrun
  exact ⟨l, s, hrun, hlength, hpc, (hjobs hpc).trans (by decide)⟩

/-! ### A run that hangs -/

section Lost

variable {P : ℤ} {s : State} {path : Str} {rest : List Str}

lemma run_step {t : State} {i : Move} {o : Option Str} (h : (machine P).exec s i = some (o, t)) :
    (machine P).Run Machine.Free s [(i, o)] t := .cons trivial h (.nil t)

lemma exec_main (hidle : s.reaper = .idle) : (machine P).exec s (.main true) = s.index P true :=
  if_pos hidle

/-- The walk gets to the next file. -/
lemma exists_run_walk (hpc : s.pc = .walk) (hidle : s.reaper = .idle)
    (hjobs : FileTree.jobsAll s.todo = path :: rest) :
    ∃ l todo, (machine P).Run Machine.Free s l { s with todo := todo, pc := .test path } ∧
      FileTree.jobsAll todo = rest := by
  -- by the number of entries that are left; a directory is replaced by its entries
  induction hn : FileTree.sizeAll s.todo using Nat.strong_induction_on generalizing s with
  | _ n ih =>
      have hexec : (machine P).exec s (.main true) = some (none, s.walk) := by
        rw [exec_main hidle, State.index, hpc]
      -- what is left after an entry without files
      have hskip : ∀ todo, FileTree.jobsAll todo = path :: rest → FileTree.sizeAll todo < n →
          s.walk = { s with todo := todo } → ∃ l todo,
            (machine P).Run Machine.Free s l { s with todo := todo, pc := .test path } ∧
              FileTree.jobsAll todo = rest := by
        intro todo hjobs hlt hwalk
        obtain ⟨l, todo', hrun, hrest⟩ :=
          ih _ hlt (s := { s with todo := todo }) hpc hidle hjobs rfl
        exact ⟨_, todo', .cons trivial (hwalk ▸ hexec) hrun, hrest⟩
      cases htodo : s.todo with
      | nil =>
          rw [htodo, FileTree.jobsAll] at hjobs
          exact absurd hjobs (by simp)
      | cons tree todo =>
          rw [htodo, FileTree.jobsAll] at hjobs
          rw [htodo, FileTree.sizeAll] at hn
          cases tree with
          | missing =>
              simp only [FileTree.size] at hn
              exact hskip todo hjobs (by omega) (by rw [State.walk, htodo])
          | directory entries =>
              simp only [FileTree.size] at hn
              refine hskip (entries ++ todo) ?_ ?_ (by rw [State.walk, htodo])
              · rwa [FileTree.jobsAll_append]
              · rw [FileTree.sizeAll_append]
                omega
          | regular p =>
              simp only [FileTree.size] at hn
              rw [FileTree.jobs] at hjobs
              by_cases hext : (extRe p).isSome = true
              · rw [if_pos hext] at hjobs
                obtain ⟨rfl, rfl⟩ := List.cons.inj hjobs
                have hwalk : s.walk = { s with todo := todo, pc := .test p } := by
                  rw [State.walk, htodo]
                  simp only [if_pos hext]
                exact ⟨_, todo, run_step (hwalk ▸ hexec), rfl⟩
              · rw [if_neg hext] at hjobs
                refine hskip todo hjobs (by omega) ?_
                rw [State.walk, htodo]
                simp only [if_neg hext, hpc]
          | other p =>
              simp only [FileTree.size] at hn
              exact hskip todo hjobs (by omega) (by rw [State.walk, htodo])

/-- A child is forked for a file. -/
lemma exists_run_fork (hpc : s.pc = .test path) (hidle : s.reaper = .idle) (hroom : s.nchilds < P) :
    ∃ l, (machine P).Run Machine.Free s l
      { s with pc := .walk, nchilds := s.nchilds + 1, running := s.running ++ [path] } := by
  have htest : (machine P).exec s (.main true) = some (none, { s with pc := .fork path }) := by
    rw [exec_main hidle, State.index, hpc]
    simp only [if_neg hroom.not_ge]
  have hfork : (machine P).exec { s with pc := .fork path } (.main true) =
      some (some path, { s with pc := .load, running := s.running ++ [path] }) := exec_main hidle
  have hload :
      (machine P).exec { s with pc := .load, running := s.running ++ [path] } (.main true) =
        some (none, { s with pc := .store s.nchilds, running := s.running ++ [path] }) :=
    exec_main hidle
  exact ⟨_, .cons trivial htest (.cons trivial hfork (.cons trivial hload
    (run_step (exec_main hidle))))⟩

lemma exec_full (hpc : s.pc = .test path) (hidle : s.reaper = .idle) (hfull : P ≤ s.nchilds) :
    (machine P).exec s (.main true) = some (none, { s with pc := .pause path }) := by
  rw [exec_main hidle, State.index, hpc]
  simp only [if_pos hfull]

/-- Children are forked until there are `PARALLELISM` of them. -/
lemma exists_run_full {n : ℕ} (hpc : s.pc = .walk) (hidle : s.reaper = .idle)
    (hn : s.nchilds + n = P) (hlength : s.running.length = s.nchilds)
    (hjobs : n < (FileTree.jobsAll s.todo).length) :
    ∃ l path todo running, (machine P).Run Machine.Free s l
      { s with todo := todo, pc := .pause path, nchilds := P, running := running } ∧
        (running.length : ℤ) = P := by
  induction n generalizing s with
  | zero =>
      obtain ⟨path, rest, hpath⟩ := List.exists_cons_of_length_pos hjobs
      obtain ⟨l, todo, hwalk, -⟩ := exists_run_walk (P := P) hpc hidle hpath
      obtain rfl : s.nchilds = P := by simpa using hn
      have hpause := run_step (exec_full (s := { s with todo := todo, pc := .test path }) rfl hidle
        le_rfl)
      exact ⟨_, path, todo, s.running, hwalk.append hpause, hlength⟩
  | succ n ih =>
      obtain ⟨path, rest, hpath⟩ := List.exists_cons_of_length_pos (Nat.zero_lt_of_lt hjobs)
      obtain ⟨l, todo, hwalk, hrest⟩ := exists_run_walk (P := P) hpc hidle hpath
      obtain ⟨l', hfork⟩ := exists_run_fork (P := P)
        (s := { s with todo := todo, pc := .test path }) rfl hidle (by simp only; omega)
      rw [hpath, List.length_cons] at hjobs
      obtain ⟨l'', path', todo', running, hfull, hrunning⟩ := ih (s := { s with
          todo := todo, pc := .walk, nchilds := s.nchilds + 1, running := s.running ++ [path] })
        rfl hidle (by simp only; push_cast at hn; omega)
        (by simp only [List.length_append, List.length_singleton]; push_cast; rw [hlength])
        (by simp only [hrest]; omega)
      exact ⟨_, path', todo', running, (hwalk.append hfork).append hfull, hrunning⟩

/-- The children end one after the other, and each of them is reaped. -/
lemma exists_run_reap (todo : List FileTree) (path : Str) (running : List Str) (n : ℤ) :
    ∃ l, (machine P).Run Machine.Free
      { todo := todo, pc := .pause path, nchilds := n, pending := false, reaper := .idle,
        running := running, zombies := [] } l
      { todo := todo, pc := .pause path, nchilds := n - running.length, pending := false,
        reaper := .idle, running := [], zombies := [] } := by
  induction running generalizing n with
  | nil => exact ⟨[], by simpa using Machine.Run.nil _⟩
  | cons child running ih =>
      obtain ⟨l, hrun⟩ := ih (n - 1)
      have hn : n - 1 - (running.length : ℤ) = n - (child :: running).length := by
        rw [List.length_cons]
        omega
      rw [hn] at hrun
      refine ⟨_, .cons (i := .exit 0) trivial rfl (.cons (i := .deliver) trivial rfl
        (.cons (i := .reap) trivial rfl (.cons (i := .reap) trivial rfl hrun)))⟩

end Lost

/-- With any number of processors and more files than processors the indexer can hang: all children
have ended and were reaped, nothing is counted any more, files are left, and the parent is in
`pause` with no signal to come. -/
theorem exists_lost_signal {P : ℤ} {tree : FileTree} (hP : 0 < P) (hjobs : P < tree.jobs.length) :
    ∃ l s, (machine P).Run Machine.Free (State.start tree) l s ∧ (∃ path, s.pc = .paused path) ∧
      s.remaining ≠ [] ∧ s.nchilds = 0 ∧ s.running = [] ∧ s.zombies = [] ∧
      ∀ i, (machine P).exec s i = none := by
  obtain ⟨l₁, path, todo, running, hfull, hlength⟩ := exists_run_full (P := P) (n := P.toNat)
    (s := State.start tree) rfl rfl (by simp [State.start, hP.le]) rfl
    (by simp only [State.start, FileTree.jobsAll, List.append_nil]; omega)
  obtain ⟨l₂, hreap⟩ := exists_run_reap (P := P) todo path running P
  rw [hlength, sub_self] at hreap
  refine ⟨_, _, (hfull.append hreap).append (run_step (i := .main true) rfl), ⟨path, rfl⟩, ?_, rfl,
    rfl, rfl, ?_⟩
  · exact List.cons_ne_nil _ _
  · intro i
    cases i <;> rfl

theorem exists_lost_signal_two :
    ∃ l s, (machine 1).Run Machine.Free (State.start twoFiles) l s ∧ (∃ path, s.pc = .paused path) ∧
      s.remaining ≠ [] ∧ s.nchilds = 0 ∧ s.running = [] ∧ s.zombies = [] ∧
      ∀ i, (machine 1).exec s i = none :=
  exists_lost_signal (by decide) (by decide)

end LocalIndexer

end Mycelium
