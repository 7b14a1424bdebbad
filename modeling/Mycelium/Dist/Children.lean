import Mycelium.Lib.Machine
import Mycelium.Dist.LocalIndexer

/-!
# The children of the local indexer

`local_indexer.cc` walks over a directory and forks a child for every file with an extension.  The
variable `nchilds` counts the children: `index` waits in `pause()` while there are `PARALLELISM` of
them and increments it after `fork`, and `chld_reaper`, the handler of `SIGCHLD`, reaps one child
and decrements it.  The signal can come between any two steps of `index`, also within the increment,
and signals that come while one is pending are one signal.

However the processes are interleaved, there are never more than `PARALLELISM` children, and the
handler finds one to reap.
-/

namespace Mycelium

open Lib

/-- What `boost::filesystem` finds under a path. -/
inductive FileTree where
  | missing
  | directory (entries : List FileTree)
  | regular (path : Str)
  /-- Neither a file nor a directory. -/
  | other (path : Str)

namespace LocalIndexer

/-! ### The program -/

/-- `\w` of `ext_re`. -/
def isWord (c : UInt8) : Bool := isAlnum c || c == 0x5F

/-- The second group of `ext_re`, if the path matches it. -/
def extRe (path : Str) : Option Str :=
  match path.reverse with
  | c :: b :: a :: dot :: _ :: _ =>
      if isWord a && isWord b && isWord c && dot == 0x2E then some [a, b, c] else none
  | _ => none

/-- The place of the parent in `index`. -/
inductive Pc where
  /-- At the next entry of the walk. -/
  | walk
  /-- At the test of `nchilds`. -/
  | test (path : Str)
  /-- Between the test and the call of `pause`. -/
  | pause (path : Str)
  /-- In the call of `pause`. -/
  | paused (path : Str)
  /-- At the call of `fork`. -/
  | fork (path : Str)
  /-- Where the increment loads `nchilds`. -/
  | load
  /-- Where the increment stores, after `n` was loaded. -/
  | store (n : ℤ)
  | returned
deriving DecidableEq

/-- The place of the parent in `chld_reaper`. -/
inductive Reaper where
  /-- The handler does not run. -/
  | idle
  | wait
  | decrement
  /-- `wait` had failed. -/
  | threw
deriving DecidableEq

/-- The parent and its children, each with its path. -/
structure State where
  /-- What is left of the walk. -/
  todo : List FileTree
  pc : Pc
  nchilds : ℤ
  /-- `SIGCHLD` is pending. -/
  pending : Bool
  reaper : Reaper
  running : List Str
  /-- The children that have ended and were not waited for. -/
  zombies : List Str

/-- The steps of the processes. -/
inductive Move where
  /-- A step of `index`; `forks` says if a call of `fork` succeeds. -/
  | main (forks : Bool)
  /-- A child ends. -/
  | exit (i : ℕ)
  /-- The pending signal is delivered. -/
  | deliver
  /-- A step of `chld_reaper`. -/
  | reap
deriving DecidableEq

namespace State

/-- Before the first call of `index`. -/
def start (tree : FileTree) : State :=
  { todo := [tree], pc := .walk, nchilds := 0, pending := false, reaper := .idle, running := [],
    zombies := [] }

/-- A step of the walk. -/
def walk (s : State) : State :=
  match s.todo with
  | [] => { s with pc := .returned }
  | .missing :: todo => { s with todo := todo }
  | .directory entries :: todo => { s with todo := entries ++ todo }
  | .regular path :: todo =>
      { s with todo := todo, pc := if (extRe path).isSome then .test path else .walk }
  | .other _ :: todo => { s with todo := todo }

/-- A step of `index`; the answer is the path of a call of `fork`. -/
def index (parallelism : ℤ) (forks : Bool) (s : State) : Option (Option Str × State) :=
  match s.pc with
  | .walk => some (none, s.walk)
  | .test path =>
      some (none, { s with pc := if parallelism ≤ s.nchilds then .pause path else .fork path })
  | .pause path => some (none, { s with pc := .paused path })
  | .paused _ => none
  | .fork path =>
      -- `fork` returns -1 when it fails, which the caller takes for a child
      some (some path,
        { s with pc := .load, running := if forks then s.running ++ [path] else s.running })
  | .load => some (none, { s with pc := .store s.nchilds })
  | .store n => some (none, { s with pc := .walk, nchilds := n + 1 })
  | .returned => none

/-- `pause` returns after the handler did. -/
def resume : Pc → Pc
  | .paused path => .test path
  | pc => pc

/-- A step of `chld_reaper`; `wait` blocks while all children run. -/
def chldReaper (s : State) : Option State :=
  match s.reaper with
  | .wait =>
      match s.zombies with
      | _ :: zombies => some { s with zombies := zombies, reaper := .decrement }
      | [] => if s.running.isEmpty then some { s with reaper := .threw } else none
  | .decrement =>
      some { s with nchilds := s.nchilds - 1, reaper := .idle, pc := resume s.pc }
  | _ => none

/-- A child ends and becomes a zombie. -/
def exit (i : ℕ) (s : State) : Option State :=
  s.running[i]?.map fun child =>
    { s with running := s.running.eraseIdx i, zombies := s.zombies ++ [child], pending := true }

/-- The handler is entered; the signal is blocked while it runs. -/
def deliver (s : State) : Option State :=
  if s.pending && s.reaper = .idle && s.pc ≠ .returned then
    some { s with pending := false, reaper := .wait }
  else none

end State

/-- The processes in any interleaving. -/
def machine (parallelism : ℤ) : Machine State Move (Option Str) where
  exec s
    | .main forks => if s.reaper = .idle then s.index parallelism forks else none
    | .exit i => (s.exit i).map (none, ·)
    | .deliver => s.deliver.map (none, ·)
    | .reap => s.chldReaper.map (none, ·)

/-! ### The steps -/

/-- The steps of the machine, one by one. -/
inductive Step (P : ℤ) (s : State) : Move → Option Str → State → Prop
  | walk (forks : Bool) (hidle : s.reaper = .idle) (hpc : s.pc = .walk) :
      Step P s (.main forks) none s.walk
  | full (forks : Bool) (path : Str) (hidle : s.reaper = .idle) (hpc : s.pc = .test path)
      (hfull : P ≤ s.nchilds) : Step P s (.main forks) none { s with pc := .pause path }
  | room (forks : Bool) (path : Str) (hidle : s.reaper = .idle) (hpc : s.pc = .test path)
      (hroom : s.nchilds < P) : Step P s (.main forks) none { s with pc := .fork path }
  | pause (forks : Bool) (path : Str) (hidle : s.reaper = .idle) (hpc : s.pc = .pause path) :
      Step P s (.main forks) none { s with pc := .paused path }
  | fork (path : Str) (hidle : s.reaper = .idle) (hpc : s.pc = .fork path) :
      Step P s (.main true) (some path)
        { s with pc := .load, running := s.running ++ [path] }
  | noFork (path : Str) (hidle : s.reaper = .idle) (hpc : s.pc = .fork path) :
      Step P s (.main false) (some path) { s with pc := .load }
  | load (forks : Bool) (hidle : s.reaper = .idle) (hpc : s.pc = .load) :
      Step P s (.main forks) none { s with pc := .store s.nchilds }
  | store (forks : Bool) (n : ℤ) (hidle : s.reaper = .idle) (hpc : s.pc = .store n) :
      Step P s (.main forks) none { s with pc := .walk, nchilds := n + 1 }
  | exit (i : ℕ) (child : Str) (hchild : s.running[i]? = some child) :
      Step P s (.exit i) none
        { s with running := s.running.eraseIdx i, zombies := s.zombies ++ [child], pending := true }
  | deliver (hpending : s.pending = true) (hidle : s.reaper = .idle) (hpc : s.pc ≠ .returned) :
      Step P s .deliver none { s with pending := false, reaper := .wait }
  | reap (child : Str) (zombies : List Str) (hwait : s.reaper = .wait)
      (hzombies : s.zombies = child :: zombies) :
      Step P s .reap none { s with zombies := zombies, reaper := .decrement }
  | noChild (hwait : s.reaper = .wait) (hzombies : s.zombies = []) (hrunning : s.running = []) :
      Step P s .reap none { s with reaper := .threw }
  | decrement (hdecrement : s.reaper = .decrement) :
      Step P s .reap none
        { s with nchilds := s.nchilds - 1, reaper := .idle, pc := State.resume s.pc }

lemma step_of_index {P : ℤ} {s t : State} {forks : Bool} {o : Option Str} (hidle : s.reaper = .idle)
    (h : s.index P forks = some (o, t)) : Step P s (.main forks) o t := by
  rw [State.index] at h
  split at h
  · next hpc =>
      obtain ⟨rfl, rfl⟩ := Prod.mk.inj (Option.some.inj h)
      exact .walk forks hidle hpc
  · next path hpc =>
      obtain ⟨rfl, rfl⟩ := Prod.mk.inj (Option.some.inj h)
      split
      · next hfull => exact .full forks path hidle hpc hfull
      · next hroom => exact .room forks path hidle hpc (not_le.1 hroom)
  · next path hpc =>
      obtain ⟨rfl, rfl⟩ := Prod.mk.inj (Option.some.inj h)
      exact .pause forks path hidle hpc
  · exact absurd h (by simp)
  · next path hpc =>
      obtain ⟨rfl, rfl⟩ := Prod.mk.inj (Option.some.inj h)
      cases forks with
      | true => exact .fork path hidle hpc
      | false => exact .noFork path hidle hpc
  · next hpc =>
      obtain ⟨rfl, rfl⟩ := Prod.mk.inj (Option.some.inj h)
      exact .load forks hidle hpc
  · next n hpc =>
      obtain ⟨rfl, rfl⟩ := Prod.mk.inj (Option.some.inj h)
      exact .store forks n hidle hpc
  · exact absurd h (by simp)

lemma step_of_chldReaper {P : ℤ} {s t : State} (h : s.chldReaper = some t) :
    Step P s .reap none t := by
  rw [State.chldReaper] at h
  split at h
  · next hwait =>
      split at h
      · next child zombies hzombies =>
          obtain rfl := Option.some.inj h
          exact .reap child zombies hwait hzombies
      · next hzombies =>
          split at h
          · next hrunning =>
              obtain rfl := Option.some.inj h
              exact .noChild hwait hzombies (List.isEmpty_iff.1 hrunning)
          · exact absurd h (by simp)
  · next hdecrement =>
      obtain rfl := Option.some.inj h
      exact .decrement hdecrement
  · exact absurd h (by simp)

lemma step_of_exec {P : ℤ} {s t : State} {i : Move} {o : Option Str}
    (h : (machine P).exec s i = some (o, t)) : Step P s i o t := by
  cases i with
  | main forks =>
      simp only [machine] at h
      split at h
      · next hidle => exact step_of_index hidle h
      · exact absurd h (by simp)
  | exit n =>
      simp only [machine, State.exit, Option.map_map, Option.map_eq_some_iff] at h
      obtain ⟨child, hchild, h⟩ := h
      obtain ⟨rfl, rfl⟩ := Prod.mk.inj h
      exact .exit n child hchild
  | deliver =>
      simp only [machine, State.deliver, Option.map_eq_some_iff] at h
      obtain ⟨u, hu, h⟩ := h
      obtain ⟨rfl, rfl⟩ := Prod.mk.inj h
      split at hu
      · next hcond =>
          obtain rfl := Option.some.inj hu
          simp only [ne_eq, decide_not, Bool.and_eq_true, decide_eq_true_eq, Bool.not_eq_true',
            decide_eq_false_iff_not] at hcond
          exact .deliver hcond.1.1 hcond.1.2 hcond.2
      · exact absurd hu (by simp)
  | reap =>
      simp only [machine, Option.map_eq_some_iff] at h
      obtain ⟨u, hu, h⟩ := h
      obtain ⟨rfl, rfl⟩ := Prod.mk.inj h
      exact step_of_chldReaper hu

/-! ### The number of children -/

/-- The handler is about to wait for a child. -/
def Reaper.waiting (r : Reaper) : ℕ := if r = .wait then 1 else 0

/-- The handler has reaped a child that is still counted. -/
def Reaper.reaped (r : Reaper) : ℕ := if r = .decrement then 1 else 0

/-- The count of the children after the increment that is under way, if `nchilds` is `n`. -/
def Pc.counted (n : ℤ) : Pc → ℤ
  | .load => n + 1
  | .store m => m + 1
  | _ => n

lemma Pc.counted_resume (n : ℤ) (pc : Pc) : (State.resume pc).counted n = pc.counted n := by
  cases pc <;> rfl

lemma Pc.counted_sub_one_le (n : ℤ) (pc : Pc) : pc.counted (n - 1) ≤ pc.counted n := by
  cases pc <;> simp only [Pc.counted] <;> omega

lemma Pc.counted_sub_one {n : ℤ} {pc : Pc} (h : ∀ m, pc ≠ .store m) :
    pc.counted (n - 1) = pc.counted n - 1 := by
  cases pc with
  | store m => exact absurd rfl (h m)
  | load => simp only [Pc.counted]; omega
  | _ => rfl

lemma Pc.counted_le_add_one (n : ℤ) (pc : Pc) : pc.counted n ≤ pc.counted (n - 1) + 1 := by
  cases pc <;> simp only [Pc.counted] <;> omega

lemma State.resume_eq_fork {pc : Pc} {path : Str} :
    State.resume pc = .fork path ↔ pc = .fork path := by
  cases pc <;> simp [State.resume]

lemma State.resume_eq_pause {pc : Pc} {path : Str}
    (h : State.resume pc = .pause path ∨ State.resume pc = .paused path) : pc = .pause path := by
  cases pc <;> simp_all [State.resume]

namespace State

variable {P : ℤ} {s t : State} {i : Move} {o : Option Str}

/-- The children that were not reaped and those that are about to be taken off the count. -/
def unreaped (s : State) : ℤ := s.running.length + s.zombies.length + s.reaper.reaped

/-- What holds between any two steps. -/
structure Inv (P : ℤ) (s : State) : Prop where
  /-- A signal that is pending or being handled has a child to reap. -/
  signalled : s.pending.toNat + s.reaper.waiting ≤ s.zombies.length
  caught : s.reaper ≠ .threw
  counted : s.unreaped ≤ s.pc.counted s.nchilds
  bounded : s.pc.counted s.nchilds ≤ max P 0
  /-- There is room for another child when `fork` is called. -/
  room : ∀ path, s.pc = .fork path → s.nchilds < P

lemma inv_start (tree : FileTree) : Inv P (start tree) where
  signalled := le_rfl
  caught := Reaper.noConfusion
  counted := le_rfl
  bounded := le_max_right P 0
  room _ h := Pc.noConfusion h

/-- The steps of the walk leave the children alone. -/
lemma walk_frame (hpc : s.pc = .walk) :
    s.walk.nchilds = s.nchilds ∧ s.walk.pending = s.pending ∧ s.walk.reaper = s.reaper ∧
      s.walk.running = s.running ∧ s.walk.zombies = s.zombies ∧
      (s.walk.pc = .walk ∨ s.walk.pc = .returned ∨ ∃ path, s.walk.pc = .test path) := by
  rw [walk]
  split
  · simp
  · simp [hpc]
  · simp [hpc]
  · split <;> simp
  · simp [hpc]

lemma inv_walk (h : Inv P s) (hpc : s.pc = .walk) : Inv P s.walk := by
  obtain ⟨hn, hpending, hreaper, hrunning, hzombies, hpc'⟩ := walk_frame hpc
  have hcounted : s.walk.pc.counted s.walk.nchilds = s.pc.counted s.nchilds := by
    rw [hn, hpc]
    rcases hpc' with h | h | ⟨path, h⟩ <;> rw [h] <;> rfl
  refine ⟨?_, ?_, ?_, ?_, ?_⟩
  · rw [hpending, hreaper, hzombies]
    exact h.signalled
  · rw [hreaper]
    exact h.caught
  · rw [unreaped, hrunning, hzombies, hreaper, hcounted]
    exact h.counted
  · rw [hcounted]
    exact h.bounded
  · intro path hfork
    rcases hpc' with h | h | ⟨path, h⟩ <;> rw [h] at hfork <;> exact Pc.noConfusion hfork

/-- Every step keeps the count. -/
lemma Inv.step (h : Inv P s) (hstep : Step P s i o t) : Inv P t := by
  have hsignalled := h.signalled
  have hcounted := h.counted
  have hbounded := h.bounded
  rw [unreaped] at hcounted
  cases hstep with
  | walk forks hidle hpc => exact inv_walk h hpc
  | full forks path hidle hpc hfull =>
      rw [hpc] at hcounted hbounded
      exact ⟨hsignalled, h.caught, hcounted, hbounded, by simp⟩
  | room forks path hidle hpc hroom =>
      rw [hpc] at hcounted hbounded
      exact ⟨hsignalled, h.caught, hcounted, hbounded, fun _ _ => hroom⟩
  | pause forks path hidle hpc =>
      rw [hpc] at hcounted hbounded
      exact ⟨hsignalled, h.caught, hcounted, hbounded, by simp⟩
  | fork path hidle hpc =>
      refine ⟨hsignalled, h.caught, ?_, le_max_of_le_left (h.room path hpc), by simp⟩
      rw [hpc] at hcounted
      simp only [Pc.counted, unreaped, List.length_append, List.length_singleton] at hcounted ⊢
      omega
  | noFork path hidle hpc =>
      refine ⟨hsignalled, h.caught, ?_, le_max_of_le_left (h.room path hpc), by simp⟩
      rw [hpc] at hcounted
      simp only [Pc.counted, unreaped] at hcounted ⊢
      omega
  | load forks hidle hpc =>
      rw [hpc] at hcounted hbounded
      exact ⟨hsignalled, h.caught, hcounted, hbounded, by simp⟩
  | store forks n hidle hpc =>
      rw [hpc] at hcounted hbounded
      exact ⟨hsignalled, h.caught, hcounted, hbounded, by simp⟩
  | exit n child hchild =>
      have hlt : n < s.running.length := (List.getElem?_eq_some_iff.1 hchild).1
      refine ⟨?_, h.caught, ?_, hbounded, h.room⟩
      · simp only [List.length_append, List.length_singleton, Bool.toNat_true]
        omega
      · simp only [unreaped, List.length_eraseIdx_of_lt hlt, List.length_append,
          List.length_singleton]
        omega
  | deliver hpending hidle hpc =>
      rw [hpending, hidle] at hsignalled
      rw [hidle] at hcounted
      exact ⟨hsignalled, Reaper.noConfusion, hcounted, hbounded, h.room⟩
  | reap child zombies hwait hzombies =>
      rw [hwait, hzombies, List.length_cons] at hsignalled hcounted
      simp only [Reaper.waiting, Reaper.reaped, reduceCtorEq, if_true, if_false]
        at hsignalled hcounted
      refine ⟨?_, Reaper.noConfusion, ?_, hbounded, h.room⟩
      · simp only [Reaper.waiting, reduceCtorEq, if_false]
        omega
      · simp only [unreaped, Reaper.reaped, if_true]
        omega
  | noChild hwait hzombies hrunning =>
      rw [hwait, hzombies] at hsignalled
      simp [Reaper.waiting] at hsignalled
  | decrement hdecrement =>
      rw [hdecrement] at hsignalled hcounted
      simp only [Reaper.reaped, if_true] at hcounted
      have hle := Pc.counted_le_add_one s.nchilds s.pc
      refine ⟨hsignalled, Reaper.noConfusion, ?_, ?_, ?_⟩
      · simp only [Pc.counted_resume, unreaped, Reaper.reaped, reduceCtorEq, if_false]
        omega
      · rw [Pc.counted_resume]
        exact (Pc.counted_sub_one_le _ _).trans hbounded
      · intro path hfork
        have hroom := h.room path (resume_eq_fork.1 hfork)
        simp only
        omega

end State

/-! ### The files -/

end LocalIndexer

namespace FileTree

mutual

/-- The files that a child is forked for, in the order of the walk. -/
def jobs : FileTree → List Str
  | missing => []
  | directory entries => jobsAll entries
  | regular path => if (LocalIndexer.extRe path).isSome then [path] else []
  | other _ => []

def jobsAll : List FileTree → List Str
  | [] => []
  | tree :: trees => jobs tree ++ jobsAll trees

end

mutual

/-- The number of files and directories. -/
def size : FileTree → ℕ
  | directory entries => sizeAll entries + 1
  | _ => 1

def sizeAll : List FileTree → ℕ
  | [] => 0
  | tree :: trees => size tree + sizeAll trees

end

lemma jobsAll_append (l l' : List FileTree) : jobsAll (l ++ l') = jobsAll l ++ jobsAll l' := by
  induction l with
  | nil => rfl
  | cons tree l ih => rw [List.cons_append, jobsAll, jobsAll, ih, List.append_assoc]

lemma sizeAll_append (l l' : List FileTree) : sizeAll (l ++ l') = sizeAll l + sizeAll l' := by
  induction l with
  | nil => rw [List.nil_append, sizeAll, Nat.zero_add]
  | cons tree l ih => rw [List.cons_append, sizeAll, sizeAll, ih, Nat.add_assoc]

end FileTree

namespace LocalIndexer

/-- The file that the parent is about to fork a child for. -/
def Pc.current : Pc → List Str
  | .test path => [path]
  | .pause path => [path]
  | .paused path => [path]
  | .fork path => [path]
  | _ => []

lemma Pc.current_resume (pc : Pc) : (State.resume pc).current = pc.current := by cases pc <;> rfl

/-- The files for which `fork` was called. -/
def attempts (l : List (Move × Option Str)) : List Str := l.filterMap Prod.snd

/-- The steps of the parent up to the next file, with those of a child that is forked. -/
def Pc.weight : Pc → ℕ
  | .test _ => 12
  | .fork _ => 11
  | .pause _ => 11
  | .paused _ => 10
  | .load => 3
  | .store _ => 2
  | .walk => 1
  | .returned => 0

/-- The steps of the handler, and those of the loop after `pause`. -/
def Reaper.weight : Reaper → ℕ
  | .wait => 5
  | .decrement => 4
  | _ => 0

lemma Pc.weight_resume (pc : Pc) : (State.resume pc).weight ≤ pc.weight + 2 := by
  cases pc <;> simp [State.resume, Pc.weight]

namespace State

variable {P : ℤ} {s t : State} {i : Move} {o : Option Str} {l : List (Move × Option Str)}

/-- The files for which `fork` is still to be called. -/
def remaining (s : State) : List Str := s.pc.current ++ FileTree.jobsAll s.todo

/-- A bound on the number of steps. -/
def stepsLeft (s : State) : ℕ :=
  12 * FileTree.sizeAll s.todo + s.pc.weight + 7 * s.running.length + 6 * s.pending.toNat +
    s.reaper.weight

lemma remaining_walk (hpc : s.pc = .walk) : s.walk.remaining = s.remaining := by
  rw [remaining, remaining, hpc, walk]
  split
  · next htodo => rw [htodo]; rfl
  · next htodo => rw [htodo, hpc]; rfl
  · next htodo => rw [htodo, hpc, FileTree.jobsAll_append]; rfl
  · next htodo =>
      rw [htodo, FileTree.jobsAll, FileTree.jobs]
      split <;> rfl
  · next htodo => rw [htodo, hpc]; rfl

/-- A step takes the file off for which it calls `fork`. -/
lemma remaining_step (hstep : Step P s i o t) : o.toList ++ t.remaining = s.remaining := by
  cases hstep with
  | walk forks hidle hpc => exact remaining_walk hpc
  | full forks path hidle hpc hfull => rw [remaining, remaining, hpc]; rfl
  | room forks path hidle hpc hroom => rw [remaining, remaining, hpc]; rfl
  | pause forks path hidle hpc => rw [remaining, remaining, hpc]; rfl
  | fork path hidle hpc => rw [remaining, remaining, hpc]; rfl
  | noFork path hidle hpc => rw [remaining, remaining, hpc]; rfl
  | load forks hidle hpc => rw [remaining, remaining, hpc]; rfl
  | store forks n hidle hpc => rw [remaining, remaining, hpc]; rfl
  | exit n child hchild => rfl
  | deliver hpending hidle hpc => rfl
  | reap child zombies hwait hzombies => rfl
  | noChild hwait hzombies hrunning => rfl
  | decrement hdecrement =>
      simp only [remaining, Pc.current_resume]
      rfl

lemma stepsLeft_walk (hpc : s.pc = .walk) : s.walk.stepsLeft < s.stepsLeft := by
  rw [stepsLeft, stepsLeft, hpc, walk]
  split
  · next htodo => simp [htodo, Pc.weight]
  · next htodo =>
      simp only [htodo, hpc, FileTree.sizeAll, FileTree.size]
      omega
  · next htodo =>
      simp only [htodo, hpc, FileTree.sizeAll, FileTree.size, FileTree.sizeAll_append]
      omega
  · next htodo =>
      simp only [htodo, FileTree.sizeAll, FileTree.size]
      split <;> simp only [Pc.weight] <;> omega
  · next htodo =>
      simp only [htodo, hpc, FileTree.sizeAll, FileTree.size]
      omega

lemma stepsLeft_step (hstep : Step P s i o t) : t.stepsLeft < s.stepsLeft := by
  cases hstep with
  | walk forks hidle hpc => exact stepsLeft_walk hpc
  | full forks path hidle hpc hfull =>
      simp only [stepsLeft, hpc, Pc.weight]
      omega
  | room forks path hidle hpc hroom =>
      simp only [stepsLeft, hpc, Pc.weight]
      omega
  | pause forks path hidle hpc =>
      simp only [stepsLeft, hpc, Pc.weight]
      omega
  | fork path hidle hpc =>
      simp only [stepsLeft, hpc, Pc.weight, List.length_append, List.length_singleton]
      omega
  | noFork path hidle hpc =>
      simp only [stepsLeft, hpc, Pc.weight]
      omega
  | load forks hidle hpc =>
      simp only [stepsLeft, hpc, Pc.weight]
      omega
  | store forks n hidle hpc =>
      simp only [stepsLeft, hpc, Pc.weight]
      omega
  | exit n child hchild =>
      have hlt : n < s.running.length := (List.getElem?_eq_some_iff.1 hchild).1
      simp only [stepsLeft, List.length_eraseIdx_of_lt hlt, Bool.toNat_true]
      omega
  | deliver hpending hidle hpc =>
      simp only [stepsLeft, hpending, hidle, Reaper.weight, Bool.toNat_true, Bool.toNat_false]
      omega
  | reap child zombies hwait hzombies =>
      simp only [stepsLeft, hwait, Reaper.weight]
      omega
  | noChild hwait hzombies hrunning =>
      simp only [stepsLeft, hwait, Reaper.weight]
      omega
  | decrement hdecrement =>
      have hle := Pc.weight_resume s.pc
      simp only [stepsLeft, hdecrement, Reaper.weight]
      omega

end State

section Runs

variable {P : ℤ} {G : State → Move → Prop} {s t : State} {l : List (Move × Option Str)}
  {tree : FileTree}

lemma inv_of_run (h : (machine P).Run G s l t) (hs : s.Inv P) : t.Inv P :=
  h.invariant (fun _ _ _ _ hs _ hexec => hs.step (step_of_exec hexec)) hs

lemma attempts_append_remaining (h : (machine P).Run G s l t) :
    attempts l ++ t.remaining = s.remaining := by
  induction h with
  | nil s => rfl
  | @cons s t u i o l _ hexec _ ih =>
      rw [← State.remaining_step (step_of_exec hexec), ← ih, ← List.append_assoc]
      cases o <;> rfl

lemma length_le_stepsLeft (h : (machine P).Run G s l t) : l.length ≤ s.stepsLeft := by
  have hlength := h.length_add_le (I := fun _ => True) (μ := State.stepsLeft)
    (fun _ _ _ _ _ _ hexec => ⟨trivial, State.stepsLeft_step (step_of_exec hexec)⟩) trivial
  omega

lemma remaining_start (tree : FileTree) : (State.start tree).remaining = tree.jobs := by
  simp [State.remaining, State.start, Pc.current, FileTree.jobsAll]

lemma stepsLeft_start (tree : FileTree) : (State.start tree).stepsLeft = 12 * tree.size + 1 := by
  simp [State.stepsLeft, State.start, Pc.weight, Reaper.weight, FileTree.sizeAll]

/-- However the processes are interleaved, there are at most `PARALLELISM` children, those included
that were not reaped; the handler is only entered with a child to reap, so that its `wait` neither
blocks nor fails; `fork` is called at most once for each file that `ext_re` matches, in the order of
the walk and with none passed over; and the number of steps is bounded. -/
theorem children_le (h : (machine P).Run Machine.Free (State.start tree) l s) :
    (s.running.length + s.zombies.length : ℤ) ≤ max P 0 ∧ s.reaper ≠ .threw ∧
      (s.reaper = .wait → s.zombies ≠ []) ∧ attempts l ++ s.remaining = tree.jobs ∧
      l.length ≤ 12 * tree.size + 1 := by
  have hinv := inv_of_run h (State.inv_start tree)
  have hcounted := hinv.counted
  rw [State.unreaped] at hcounted
  refine ⟨?_, hinv.caught, fun hwait hzombies => ?_, ?_, ?_⟩
  · exact (le_add_of_nonneg_right (Nat.cast_nonneg _)).trans (hcounted.trans hinv.bounded)
  · have hsignalled := hinv.signalled
    rw [hwait, hzombies] at hsignalled
    simp [Reaper.waiting] at hsignalled
  · rw [attempts_append_remaining h, remaining_start]
  · exact (length_le_stepsLeft h).trans_eq (stepsLeft_start tree)

/-- Two files in a directory. -/
def twoFiles : FileTree := .directory [.regular (lit "a.pdf"), .regular (lit "b.PDF")]

/-- A run on two files with one processor, up to the end of the walk; the parent waits for the first
child. -/
def twoMoves : List Move :=
  List.replicate 9 (.main true) ++ [.exit 0, .deliver, .reap, .reap] ++
    List.replicate 5 (.main true)

theorem children_le_two :
    ∃ l s, (machine 1).Run Machine.Free (State.start twoFiles) l s ∧ s.pc = .returned ∧
      (s.running.length + s.zombies.length : ℤ) ≤ max 1 0 ∧
      attempts l ++ s.remaining = [lit "a.pdf", lit "b.PDF"] := by
  obtain ⟨l, s, hrun, hpc⟩ := Machine.exists_run_of_any (M := machine 1) (G := Machine.Free)
    (s := State.start twoFiles) (p := fun x => decide (x.2.pc = .returned)) twoMoves
    (fun _ _ _ => trivial) (by decide +kernel)
  have h := children_le hrun
  exact ⟨l, s, hrun, of_decide_eq_true hpc, h.1, h.2.2.2.1.trans (by decide)⟩

end Runs

end LocalIndexer

end Mycelium
