import Mycelium.Lib.Machine
import Mycelium.Common.BigHash

/-!
# The lock file of a bucket

`get_lockfile` and `unlock`, one system call at a time, by processes that share the file and can
die at any call.  A process that takes over a lock file writes its pid over what it has read, with
nothing to keep others from doing the same.

As long as each take-over finds the file as it was read, with nobody else about to write to it, the
pid in the lock file is that of the one live holder.
-/

namespace Mycelium

open Lib

namespace BucketLock

abbrev Pid := ℕ

/-- Where a process stands: the system call it makes next.  A file is known by its inode. -/
inductive Pc where
  /-- Outside of `get_lockfile`, without the lock. -/
  | out
  /-- `open(f, O_CREAT | O_EXCL | O_RDWR)`. -/
  | openExcl
  /-- `open(f, O_RDWR)`, after `EEXIST`. -/
  | openRdwr
  /-- `read` of the file. -/
  | read (file : ℕ)
  /-- `running_pid(lock_pid)`. -/
  | scan (file : ℕ) (lockPid : Pid)
  /-- `write_pid` to the file that the process has created. -/
  | create (file : ℕ)
  /-- `write_pid` to a file of which the process has read `seen`, nothing or a stale pid. -/
  | reuse (file : ℕ) (seen : Option Pid)
  /-- `get_lockfile` has returned; `unlink(f)` comes next. -/
  | locked
deriving DecidableEq, Repr

/-- The lock file and the processes. -/
structure Shared where
  /-- The file that the name `f` stands for. -/
  path : Option ℕ := none
  /-- The pid in a file; `none` in an empty one. -/
  content : ℕ → Option Pid := fun _ => none
  /-- The inode of the next new file. -/
  inode : ℕ := 0
  pc : Pid → Pc := fun _ => .out
  /-- The entries of `/proc`. -/
  alive : List Pid

/-- What a process or its end is up to. -/
inductive Event where
  /-- The process calls `get_lockfile`. -/
  | lock (p : Pid)
  /-- The process makes its next system call. -/
  | next (p : Pid)
  | die (p : Pid)
deriving DecidableEq, Repr

/-- What comes of a system call. -/
inductive Outcome where
  | goesOn
  | returns
  | throws (e : Exn)
deriving DecidableEq, Repr

namespace Shared

/-- The process comes to another system call. -/
def goto (s : Shared) (p : Pid) (c : Pc) : Shared := { s with pc := Function.update s.pc p c }

/-- `write_pid`. -/
def writePid (s : Shared) (file : ℕ) (p : Pid) : Shared :=
  { s with content := Function.update s.content file (some p) }

/-- `open(f, O_CREAT | O_EXCL | O_RDWR)` of a name that is free. -/
def createFile (s : Shared) : Shared :=
  { s with
    path := some s.inode
    content := Function.update s.content s.inode none
    inode := s.inode + 1 }

/-- The next system call of a process, in `get_lockfile(f)` or in `unlock`. -/
def syscall (f : Str) (block : Pid → Bool) (s : Shared) (p : Pid) : Option (Outcome × Shared) :=
  match s.pc p with
  | .out => none
  | .openExcl =>
      match s.path with
      | none => some (.goesOn, s.createFile.goto p (.create s.inode))
      | some _ => some (.goesOn, s.goto p .openRdwr)
  | .openRdwr =>
      match s.path with
      | none =>
          some (.throws (.runtimeError (lit "open error: No such file or directory\n")),
            s.goto p .out)
      | some file => some (.goesOn, s.goto p (.read file))
  | .read file =>
      match s.content file with
      | none => some (.goesOn, s.goto p (.reuse file none))
      | some lockPid =>
          if lockPid = p then some (.throws (.runtimeError (lit "prevent deadlock")), s.goto p .out)
          else some (.goesOn, s.goto p (.scan file lockPid))
  | .scan file lockPid =>
      if lockPid ∉ s.alive then some (.goesOn, s.goto p (.reuse file (some lockPid)))
      else if block p then
        -- after a sleep, the loop starts again
        some (.goesOn, s.goto p .openExcl)
      else
        some (.throws (.runtimeError
          (lit "lock on " ++ f ++ lit " would block and block is false")), s.goto p .out)
  | .create file => some (.returns, (s.writePid file p).goto p .locked)
  | .reuse file _ => some (.returns, (s.writePid file p).goto p .locked)
  | .locked =>
      match s.path with
      | some _ => some (.returns, { s with path := none }.goto p .out)
      | none =>
          some (.throws (.runtimeError (lit "unlink error: No such file or directory\n")),
            s.goto p .out)

end Shared

/-- The processes at work on the lock file `f`; `block` is the flag of their bucket objects. -/
def machine (f : Str) (block : Pid → Bool) : Machine Shared Event Outcome where
  exec s
    | .lock p =>
        if p ∈ s.alive ∧ s.pc p = .out then some (.goesOn, s.goto p .openExcl) else none
    | .next p => if p ∈ s.alive then s.syscall f block p else none
    | .die p => some (.goesOn, { s with alive := s.alive.filter (· ≠ p) })

/-- The process is about to write its pid to the file. -/
def Pc.writes : Pc → ℕ → Bool
  | .create file, i => file = i
  | .reuse file _, i => file = i
  | _, _ => false

/-- A take-over happens while `f` still is the file that was opened, with what was read in it, and
no other live process is about to write to it. -/
def Pc.Undisturbed (s : Shared) (p : Pid) : Pc → Prop
  | .reuse file seen => s.path = some file ∧ s.content file = seen ∧
      ∀ q ∈ s.alive, q ≠ p → (s.pc q).writes file = false
  | _ => True

def Undisturbed (s : Shared) : Event → Prop
  | .next p => (s.pc p).Undisturbed s p
  | _ => True

/-! ### A process on its own -/

/-- The lock file is there or not, and if it is there, the process has written it. -/
def Alone (s : Shared) (p : Pid) (there : Bool) : Prop :=
  match s.path with
  | some i => there = true ∧ s.content i = some p
  | none => there = false

@[simp] lemma pc_goto_self (s : Shared) (p : Pid) (c : Pc) : (s.goto p c).pc p = c := by
  simp [Shared.goto]

lemma pc_goto_of_ne {q p : Pid} (s : Shared) (c : Pc) (h : q ≠ p) :
    (s.goto p c).pc q = s.pc q := by
  simp [Shared.goto, h]

@[simp] lemma path_goto (s : Shared) (p : Pid) (c : Pc) : (s.goto p c).path = s.path := rfl

@[simp] lemma content_goto (s : Shared) (p : Pid) (c : Pc) :
    (s.goto p c).content = s.content := rfl

@[simp] lemma alive_goto (s : Shared) (p : Pid) (c : Pc) : (s.goto p c).alive = s.alive := rfl

/-- `get_lockfile` as a bucket object of the only process sees it. -/
theorem getLockfile_alone {H : Type} [DecidableEq H] {f : Str} {block : Pid → Bool} {s : Shared}
    {p : Pid} {d : BigHash.Disk H} {dir : BigHash.Dir H} (hp : p ∈ s.alive) (hpc : s.pc p = .out)
    (hd : Alone s p (d.lockFile dir)) :
    ∃ l t, Machine.Run (machine f block) Machine.Free s l t ∧
      Alone t p ((BigHashBucket.getLockfile dir d).2.lockFile dir) ∧
      match (BigHashBucket.getLockfile dir d).1 with
      | .ok _ => t.pc p = .locked
      | .error e => t.pc p = .out ∧ l.getLast?.map Prod.snd = some (.throws e) := by
  have hlock : (machine f block).exec s (.lock p) = some (.goesOn, s.goto p .openExcl) := by
    simp [machine, hp, hpc]
  have hnext : ∀ {t : Shared} {x : Outcome × Shared}, t.alive = s.alive →
      t.syscall f block p = some x → (machine f block).exec t (.next p) = some x := by
    intro t x ht hx
    simp [machine, ht, hp, hx]
  cases hpath : s.path with
  | none =>
      have hfree : d.lockFile dir = false := by simpa [Alone, hpath] using hd
      have hget : BigHashBucket.getLockfile dir d = (.ok (), d.setLock dir true) :=
        BigHash.lock_ok (b := BigHash.bucketAt dir []) rfl hfree
      have hcreate : (s.goto p .openExcl).syscall f block p =
          some (.goesOn, (s.goto p .openExcl).createFile.goto p (.create s.inode)) := by
        simp only [Shared.syscall, pc_goto_self, path_goto, hpath]
        rfl
      have hwrite : ((s.goto p .openExcl).createFile.goto p (.create s.inode)).syscall f block p =
          some (.returns, (((s.goto p .openExcl).createFile.goto p
            (.create s.inode)).writePid s.inode p).goto p .locked) := by
        simp only [Shared.syscall, pc_goto_self]
      refine ⟨_, _, .cons trivial hlock (.cons trivial (hnext rfl hcreate)
        (.cons trivial (hnext rfl hwrite) (.nil _))), ?_⟩
      rw [hget]
      exact ⟨⟨by simp, by simp [Shared.writePid, Shared.goto]⟩, pc_goto_self _ _ _⟩
  | some i =>
      obtain ⟨hthere, hown⟩ : d.lockFile dir = true ∧ s.content i = some p := by
        simpa [Alone, hpath] using hd
      have hget : BigHashBucket.getLockfile dir d =
          (.error (.runtimeError (lit "prevent deadlock")), d) := by
        rw [BigHashBucket.getLockfile, BigHash.get_bind, if_pos hthere]
        rfl
      have hexcl : (s.goto p .openExcl).syscall f block p =
          some (.goesOn, (s.goto p .openExcl).goto p .openRdwr) := by
        simp only [Shared.syscall, pc_goto_self, path_goto, hpath]
      have hrdwr : ((s.goto p .openExcl).goto p .openRdwr).syscall f block p =
          some (.goesOn, ((s.goto p .openExcl).goto p .openRdwr).goto p (.read i)) := by
        simp only [Shared.syscall, pc_goto_self, path_goto, hpath]
      have hread : (((s.goto p .openExcl).goto p .openRdwr).goto p (.read i)).syscall f block p =
          some (.throws (.runtimeError (lit "prevent deadlock")),
            (((s.goto p .openExcl).goto p .openRdwr).goto p (.read i)).goto p .out) := by
        simp only [Shared.syscall, pc_goto_self, content_goto, hown, if_true]
      refine ⟨_, _, .cons trivial hlock (.cons trivial (hnext rfl hexcl)
        (.cons trivial (hnext rfl hrdwr) (.cons trivial (hnext rfl hread) (.nil _)))), ?_⟩
      rw [hget]
      exact ⟨by simpa [Alone, hpath] using ⟨hthere, hown⟩, pc_goto_self _ _ _, rfl⟩

/-! ### The invariant -/

/-- What the lock file is to a live process. -/
def PcOk (s : Shared) (p : Pid) : Pc → Prop
  | .locked => ∃ i, s.path = some i ∧ s.content i = some p
  | .create i => s.path = some i ∧ s.content i = none
  | .reuse _ (some r) => r ∉ s.alive
  | _ => True

structure Inv (s : Shared) : Prop where
  pc_ok : ∀ p ∈ s.alive, PcOk s p (s.pc p)
  creator_unique : ∀ p ∈ s.alive, ∀ q ∈ s.alive, ∀ i,
    s.pc p = .create i → s.pc q = .create i → p = q

section

variable {s t : Shared} {p q : Pid} {c : Pc} {i : ℕ}

lemma Inv.holder (h : Inv s) (hp : p ∈ s.alive) (hpc : s.pc p = .locked) :
    ∃ i, s.path = some i ∧ s.content i = some p := by
  have hok := h.pc_ok p hp
  rwa [hpc] at hok

lemma Inv.creator (h : Inv s) (hp : p ∈ s.alive) (hpc : s.pc p = .create i) :
    s.path = some i ∧ s.content i = none := by
  have hok := h.pc_ok p hp
  rwa [hpc] at hok

/-- The pid in the lock file is that of the holder. -/
lemma Inv.holder_unique (h : Inv s) (hp : p ∈ s.alive) (hq : q ∈ s.alive)
    (hpc : s.pc p = .locked) (hqc : s.pc q = .locked) : p = q := by
  obtain ⟨i, hi, hip⟩ := h.holder hp hpc
  obtain ⟨j, hj, hjq⟩ := h.holder hq hqc
  obtain rfl : i = j := Option.some.inj (hi.symm.trans hj)
  exact Option.some.inj (hip.symm.trans hjq)

/-- A process gets to another place, with the files as they are or with new ones. -/
lemma inv_goto (hp : PcOk t p c) (hne : ∀ q ∈ t.alive, q ≠ p → PcOk t q (t.pc q))
    (hu : ∀ q ∈ t.alive, ∀ q' ∈ t.alive, ∀ i, (t.goto p c).pc q = .create i →
      (t.goto p c).pc q' = .create i → q = q') : Inv (t.goto p c) := by
  refine ⟨fun q hq => ?_, hu⟩
  by_cases hqp : q = p
  · subst hqp
    rwa [pc_goto_self]
  · rw [pc_goto_of_ne _ _ hqp]
    exact hne q hq hqp

/-- A process that does not create a file does not add a creator. -/
lemma creator_unique_goto (h : Inv s) (ht : t.alive = s.alive) (hpc : t.pc = s.pc)
    (hc : ∀ i, c ≠ .create i) :
    ∀ q ∈ t.alive, ∀ q' ∈ t.alive, ∀ i, (t.goto p c).pc q = .create i →
      (t.goto p c).pc q' = .create i → q = q' := by
  intro q hq q' hq' i hqi hqi'
  have hqp : q ≠ p := by
    rintro rfl
    exact hc i (by simpa using hqi)
  have hqp' : q' ≠ p := by
    rintro rfl
    exact hc i (by simpa using hqi')
  rw [pc_goto_of_ne _ _ hqp, hpc] at hqi
  rw [pc_goto_of_ne _ _ hqp', hpc] at hqi'
  exact h.creator_unique q (ht ▸ hq) q' (ht ▸ hq') i hqi hqi'

lemma Inv.goto (h : Inv s) (hp : PcOk s p c) (hc : ∀ i, c ≠ .create i) : Inv (s.goto p c) :=
  inv_goto hp (fun q hq _ => h.pc_ok q hq) (creator_unique_goto h rfl rfl hc)

/-- A name that is free has neither holder nor creator. -/
lemma Inv.createFile (h : Inv s) (hfree : s.path = none) :
    Inv (s.createFile.goto p (.create s.inode)) := by
  have hnone : ∀ q ∈ s.alive, ∀ i, s.pc q ≠ .create i := by
    intro q hq i hqi
    have hpath := (h.creator hq hqi).1
    rw [hfree] at hpath
    exact absurd hpath (by simp)
  refine inv_goto ⟨rfl, by simp [Shared.createFile]⟩ (fun q hq _ => ?_) ?_
  · have hok := h.pc_ok q hq
    change PcOk s.createFile q (s.pc q)
    cases hqc : s.pc q with
    | locked =>
        obtain ⟨i, hi, -⟩ := h.holder hq hqc
        rw [hfree] at hi
        exact absurd hi (by simp)
    | create i => exact absurd hqc (hnone q hq i)
    | reuse i seen =>
        rw [hqc] at hok
        cases seen <;> exact hok
    | _ => trivial
  · intro q hq q' hq' i hqi hqi'
    have hqp : ∀ r ∈ s.alive, (s.createFile.goto p (.create s.inode)).pc r = .create i → r = p := by
      intro r hr hri
      by_contra hrp
      rw [pc_goto_of_ne _ _ hrp] at hri
      exact hnone r hr i hri
    rw [hqp q hq hqi, hqp q' hq' hqi']

/-- `write_pid`, when nobody holds the lock and nobody else is about to create the file. -/
lemma Inv.writePid (h : Inv s) (hpath : s.path = some i)
    (hfree : ∀ q ∈ s.alive, s.content i ≠ some q)
    (hcreate : ∀ q ∈ s.alive, q ≠ p → s.pc q ≠ .create i) :
    Inv ((s.writePid i p).goto p .locked) := by
  refine inv_goto ⟨i, hpath, by simp [Shared.writePid]⟩ (fun q hq hqp => ?_)
    (creator_unique_goto h rfl rfl (by simp))
  have hok := h.pc_ok q hq
  change PcOk (s.writePid i p) q (s.pc q)
  cases hqc : s.pc q with
  | locked =>
      obtain ⟨j, hj, hjq⟩ := h.holder hq hqc
      obtain rfl : j = i := Option.some.inj (hj.symm.trans hpath)
      exact absurd hjq (hfree q hq)
  | create j =>
      obtain ⟨hj, -⟩ := h.creator hq hqc
      obtain rfl : j = i := Option.some.inj (hj.symm.trans hpath)
      exact absurd hqc (hcreate q hq hqp)
  | reuse j seen =>
      rw [hqc] at hok
      cases seen <;> exact hok
  | _ => trivial

/-- `unlink` by the holder. -/
lemma Inv.unlink (h : Inv s) (hp : p ∈ s.alive) (hpc : s.pc p = .locked) :
    Inv ({ s with path := none }.goto p .out) := by
  refine inv_goto trivial (fun q hq hqp => ?_) (creator_unique_goto h rfl rfl (by simp))
  have hok := h.pc_ok q hq
  change PcOk _ q (s.pc q)
  cases hqc : s.pc q with
  | locked => exact absurd (h.holder_unique hq hp hqc hpc) hqp
  | create j =>
      obtain ⟨hj, hnone⟩ := h.creator hq hqc
      obtain ⟨i, hi, hip⟩ := h.holder hp hpc
      obtain rfl : j = i := Option.some.inj (hj.symm.trans hi)
      rw [hip] at hnone
      exact absurd hnone (by simp)
  | reuse j seen =>
      rw [hqc] at hok
      cases seen <;> exact hok
  | _ => trivial

lemma Inv.die (h : Inv s) (p : Pid) : Inv { s with alive := s.alive.filter (· ≠ p) } := by
  have hsub : ∀ q, q ∈ s.alive.filter (· ≠ p) → q ∈ s.alive := fun q hq =>
    List.mem_of_mem_filter hq
  refine ⟨fun q hq => ?_, fun q hq q' hq' =>
    h.creator_unique q (hsub q hq) q' (hsub q' hq')⟩
  have hok := h.pc_ok q (hsub q hq)
  change PcOk _ q (s.pc q)
  cases hqc : s.pc q with
  | reuse j seen =>
      rw [hqc] at hok
      cases seen with
      | none => trivial
      | some r => exact fun hr => hok (hsub r hr)
  | _ =>
      rw [hqc] at hok
      exact hok

/-- The system calls of a live process. -/
lemma Inv.syscall {f : Str} {block : Pid → Bool} {o : Outcome} (h : Inv s) (hp : p ∈ s.alive)
    (hg : Undisturbed s (.next p)) (hexec : s.syscall f block p = some (o, t)) : Inv t := by
  have hok := h.pc_ok p hp
  rw [Shared.syscall] at hexec
  cases hpc : s.pc p with
  | out => simp [hpc] at hexec
  | openExcl =>
      cases hpath : s.path with
      | none =>
          simp only [hpc, hpath, Option.some.injEq, Prod.mk.injEq] at hexec
          exact hexec.2 ▸ h.createFile hpath
      | some i =>
          simp only [hpc, hpath, Option.some.injEq, Prod.mk.injEq] at hexec
          exact hexec.2 ▸ h.goto trivial (by simp)
  | openRdwr =>
      cases hpath : s.path with
      | none =>
          simp only [hpc, hpath, Option.some.injEq, Prod.mk.injEq] at hexec
          exact hexec.2 ▸ h.goto trivial (by simp)
      | some i =>
          simp only [hpc, hpath, Option.some.injEq, Prod.mk.injEq] at hexec
          exact hexec.2 ▸ h.goto trivial (by simp)
  | read i =>
      cases hread : s.content i with
      | none =>
          simp only [hpc, hread, Option.some.injEq, Prod.mk.injEq] at hexec
          exact hexec.2 ▸ h.goto trivial (by simp)
      | some r =>
          simp only [hpc, hread] at hexec
          split at hexec
          all_goals
            simp only [Option.some.injEq, Prod.mk.injEq] at hexec
            exact hexec.2 ▸ h.goto trivial (by simp)
  | scan i r =>
      simp only [hpc] at hexec
      split at hexec
      · next hr =>
          simp only [Option.some.injEq, Prod.mk.injEq] at hexec
          exact hexec.2 ▸ h.goto hr (by simp)
      · split at hexec
        all_goals
          simp only [Option.some.injEq, Prod.mk.injEq] at hexec
          exact hexec.2 ▸ h.goto trivial (by simp)
  | create i =>
      simp only [hpc, Option.some.injEq, Prod.mk.injEq] at hexec
      obtain ⟨hpath, hnone⟩ := h.creator hp hpc
      refine hexec.2 ▸ h.writePid hpath (fun q _ => by simp [hnone]) fun q hq hqp hqc => ?_
      exact hqp (h.creator_unique q hq p hp i hqc hpc)
  | reuse i seen =>
      simp only [hpc, Option.some.injEq, Prod.mk.injEq] at hexec
      simp only [Undisturbed, Pc.Undisturbed, hpc] at hg
      obtain ⟨hpath, hseen, hrest⟩ := hg
      refine hexec.2 ▸ h.writePid hpath (fun q hq hcontent => ?_) fun q hq hqp hqc => ?_
      · -- the pid that was read is of a process that had died
        rw [hpc, ← hseen, hcontent] at hok
        exact hok hq
      · have hw := hrest q hq hqp
        rw [hqc] at hw
        exact absurd hw (by simp [Pc.writes])
  | locked =>
      obtain ⟨i, hi, -⟩ := h.holder hp hpc
      simp only [hpc, hi, Option.some.injEq, Prod.mk.injEq] at hexec
      exact hexec.2 ▸ h.unlink hp hpc

lemma Inv.exec {f : Str} {block : Pid → Bool} {e : Event} {o : Outcome} (h : Inv s)
    (hg : Undisturbed s e) (hexec : (machine f block).exec s e = some (o, t)) : Inv t := by
  cases e with
  | lock p =>
      simp only [machine] at hexec
      split at hexec
      · simp only [Option.some.injEq, Prod.mk.injEq] at hexec
        exact hexec.2 ▸ h.goto trivial (by simp)
      · exact absurd hexec (by simp)
  | next p =>
      simp only [machine] at hexec
      split at hexec
      · next hp => exact h.syscall hp hg hexec
      · exact absurd hexec (by simp)
  | die p =>
      simp only [machine, Option.some.injEq, Prod.mk.injEq] at hexec
      exact hexec.2 ▸ h.die p

end

instance (s : Shared) (p : Pid) : (c : Pc) → Decidable (c.Undisturbed s p)
  | .reuse file seen => inferInstanceAs (Decidable (s.path = some file ∧ s.content file = seen ∧
      ∀ q ∈ s.alive, q ≠ p → (s.pc q).writes file = false))
  | .out | .openExcl | .openRdwr | .read _ | .scan _ _ | .create _ | .locked => isTrue trivial

instance (s : Shared) : (e : Event) → Decidable (Undisturbed s e)
  | .next p => inferInstanceAs (Decidable ((s.pc p).Undisturbed s p))
  | .lock _ | .die _ => isTrue trivial

/-- From any lock file, left over or not, with no process at work on it: as long as every take-over
is undisturbed, at most one live process is between a successful return of `get_lockfile` and its
`unlink`. -/
theorem mutual_exclusion {f : Str} {block : Pid → Bool} {s t : Shared}
    {l : List (Event × Outcome)} (hs : ∀ p, s.pc p = .out)
    (hrun : Machine.Run (machine f block) Undisturbed s l t) :
    ∀ p ∈ t.alive, ∀ q ∈ t.alive, t.pc p = .locked → t.pc q = .locked → p = q := by
  have hinit : Inv s := ⟨fun p _ => by rw [hs p]; trivial, fun p _ q _ i hpc => by simp [hs] at hpc⟩
  have hinv : Inv t := hrun.invariant (fun _ _ _ _ h hg hexec => h.exec hg hexec) hinit
  exact fun p hp q hq hpc hqc => hinv.holder_unique hp hq hpc hqc

/-- The lock of a process that has died is taken over. -/
theorem mutual_exclusion_stale : ∃ (t : Shared) (l : _),
    Machine.Run (machine (lit "f") fun _ => true) Undisturbed { alive := [1, 2] } l t ∧
      2 ∈ t.alive ∧ t.pc 2 = .locked ∧
        ∀ p ∈ t.alive, ∀ q ∈ t.alive, t.pc p = .locked → t.pc q = .locked → p = q := by
  obtain ⟨l, t, hrun, ht⟩ := Machine.exists_run_of_any
    (M := (machine (lit "f") fun _ => true).guard Undisturbed) (G := Machine.Free)
    (s := { alive := [1, 2] })
    [.lock 1, .next 1, .next 1, .die 1, .lock 2, .next 2, .next 2, .next 2, .next 2, .next 2]
    (p := fun x => decide (2 ∈ x.2.alive ∧ x.2.pc 2 = .locked))
    (fun _ _ _ => trivial) (by decide)
  obtain ⟨halive, hlocked⟩ := of_decide_eq_true ht
  exact ⟨t, l, Machine.run_of_guard hrun, halive, hlocked,
    mutual_exclusion (fun _ => rfl) (Machine.run_of_guard hrun)⟩

/-- Process 1 has created the lock file; before it writes its pid, process 2 finds the file empty
and takes it over. -/
theorem not_mutual_exclusion : ∃ (t : Shared) (l : _),
    Machine.Run (machine (lit "f") fun _ => true) Machine.Free { alive := [1, 2] } l t ∧
      1 ∈ t.alive ∧ 2 ∈ t.alive ∧ t.pc 1 = .locked ∧ t.pc 2 = .locked := by
  obtain ⟨l, t, hrun, ht⟩ := Machine.exists_run_of_any
    (M := machine (lit "f") fun _ => true) (G := Machine.Free) (s := { alive := [1, 2] })
    [.lock 1, .next 1, .lock 2, .next 2, .next 2, .next 2, .next 2, .next 1]
    (p := fun x => decide (1 ∈ x.2.alive ∧ 2 ∈ x.2.alive ∧ x.2.pc 1 = .locked ∧
      x.2.pc 2 = .locked))
    (fun _ _ _ => trivial) (by decide)
  exact ⟨t, l, hrun, of_decide_eq_true ht⟩

end BucketLock
end Mycelium
