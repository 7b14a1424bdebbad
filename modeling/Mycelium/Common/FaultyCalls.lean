import Mycelium.Common.BucketOpen

/-!
# The calls of the constructors, with their failures

What each function that the constructors of `big_hash_bucket` call does, by which of the next
system calls fail.  A function is left with the world after as many calls as it has made.
-/

namespace Mycelium

open Lib BigHash BucketLock

namespace BucketOpen

variable {pid : Pid} {ε α : Type} {w w' : World pid} {f dir key : Str} {block : Bool} {n : ℕ}

/-! ### What is asked of the calls -/

/-- The next calls do not fail. -/
def World.Works (w : World pid) (n : ℕ) : Prop := ∀ i < n, w.faults i = none

lemma World.Works.succ (h : w.Works n) (hn : w.faults n = none) : w.Works (n + 1) := by
  intro i hi
  rcases Nat.lt_succ_iff_lt_or_eq.1 hi with hi | rfl
  · exact h i hi
  · exact hn

/-- `open` finds the lock file, or says so. -/
def FindsLock (f : Str) (w : World pid) : Prop :=
  w.faults 0 = some .exist ∨ w.faults 0 = none ∧ w.sys.locks f ≠ none

/-- `get_lockfile` comes to write the pid, in another world. -/
inductive ComesToWrite (block : Bool) (f : Str) : ℕ → World pid → World pid → Prop
  /-- There is no lock file. -/
  | new {n : ℕ} {w : World pid} : w.faults 0 = none → w.sys.locks f = none →
      ComesToWrite block f (n + 1) w ((w.after 1).withSys (w.sys.setLock f (some none)))
  /-- Nothing is read from the lock file. -/
  | unread {n : ℕ} {w : World pid} {content : Option Pid} : FindsLock f w → w.faults 1 = none →
      w.sys.locks f = some content → (w.faults 2 = none → content = none) →
      ComesToWrite block f (n + 1) w (w.after 3)
  /-- The process whose pid is in the lock file is not running. -/
  | stale {n : ℕ} {w : World pid} {p : Pid} : FindsLock f w → w.faults 1 = none →
      w.sys.locks f = some (some p) → w.faults 2 = none → p ≠ pid → w.faults 3 = none →
      w.sys.running p = false → ComesToWrite block f (n + 1) w (w.after 4)
  /-- The process is running, and after a sleep `get_lockfile` begins again. -/
  | slept {n : ℕ} {w w' : World pid} {p : Pid} : FindsLock f w → w.faults 1 = none →
      w.sys.locks f = some (some p) → w.faults 2 = none → p ≠ pid → w.faults 3 = none →
      w.sys.running p = true → block = true → w.faults 4 = none →
      ComesToWrite block f n (w.after 5).slept w' → ComesToWrite block f (n + 1) w w'

/-- `get_lockfile` takes the lock file. -/
def Takes (block : Bool) (f : Str) (n : ℕ) (w w' : World pid) : Prop :=
  ∃ w₁, ComesToWrite block f n w w₁ ∧ w₁.Works 3 ∧
    w' = (w₁.after 3).withSys (w₁.sys.setLock f (some (some pid)))

/-- `ftruncate` fails once the pid is in the lock file.  It is not, when a longer one was there. -/
def Tears (block : Bool) (f : Str) (n : ℕ) (w : World pid) : Prop :=
  ∃ w₁, ComesToWrite block f n w w₁ ∧ w₁.Works 2 ∧ w₁.faults 2 ≠ none ∧
    overwritten pid (w₁.sys.locks f).join = pid

/-- The calls of `read` for a key. -/
def readCalls (k : Str) : ℕ := (k.length + 1023) / 1024 + 1

/-- `read_key` reads the key `k`. -/
def ReadsKey (dir k : Str) (w : World pid) : Prop :=
  w.Works (1 + readCalls k) ∧ (w.sys.dirs dir).bind (·.key) = some k

/-- `read_key` fails after some calls. -/
inductive FailsToRead (dir : Str) (w : World pid) : ℕ → Prop
  | unopened : w.faults 0 ≠ none → FailsToRead dir w 1
  | missing : w.faults 0 = none → (w.sys.dirs dir).bind (·.key) = none → FailsToRead dir w 1
  | read {k : Str} {i : ℕ} : (w.sys.dirs dir).bind (·.key) = some k → i < readCalls k →
      w.Works (1 + i) → w.faults (1 + i) ≠ none → FailsToRead dir w (2 + i)

/-- `write_key` writes the key. -/
def WritesKey (dir key : Str) (w : World pid) : Prop :=
  w.Works (1 + (key.length + 8191) / 8192) ∧ w.sys.dirs dir ≠ none

/-- The loop of `create_directories` works. -/
inductive MakesDirs : List Str → World pid → World pid → Prop
  | nil {w : World pid} : MakesDirs [] w w
  | made {w w' : World pid} {buf : Str} {bufs : List Str} : w.faults 0 = none →
      MakesDirs bufs ((w.after 1).withSys (w.sys.made buf)) w' → MakesDirs (buf :: bufs) w w'
  | exist {w w' : World pid} {buf : Str} {bufs : List Str} : w.faults 0 = some .exist →
      MakesDirs bufs (w.after 1) w' → MakesDirs (buf :: bufs) w w'

/-- `create_directories` works. -/
inductive Creates (path : Str) (w : World pid) : World pid → Prop
  | there : w.faults 0 = none → w.sys.dirs path ≠ none → Creates path w (w.after 1)
  | makes {w' : World pid} : (w.faults 0 = none → w.sys.dirs path = none) →
      MakesDirs (beginnings path) (w.after 1) w' → Creates path w w'

/-- `access` finds the directory. -/
def Accessible (dir : Str) (w : World pid) : Prop := w.faults 0 = none ∧ w.sys.dirs dir ≠ none

/-- `access` does not find the directory, or says so. -/
def Missing (dir : Str) (w : World pid) : Prop :=
  w.faults 0 = some .noent ∨ w.faults 0 = none ∧ w.sys.dirs dir = none

/-! ### What the calls do -/

lemma System.setDir_setDir (s : System) (path : Str) (x y : Option Bucket) :
    (s.setDir path x).setDir path y = s.setDir path y := by
  simp [System.setDir]

lemma System.setDir_self {s : System} {path : Str} {x : Option Bucket} (h : s.dirs path = x) :
    s.setDir path x = s := by
  rw [System.setDir, ← h, Function.update_eq_self]

@[simp] lemma faults_after (w : World pid) (n i : ℕ) :
    (w.after n).faults i = w.faults (i + n) := rfl

@[simp] lemma sys_after (w : World pid) (n : ℕ) : (w.after n).sys = w.sys := rfl

@[simp] lemma after_after (w : World pid) (m n : ℕ) : (w.after m).after n = w.after (n + m) := by
  simp [World.after, Nat.add_assoc]

@[simp] lemma faults_withSys (w : World pid) (s : System) : (w.withSys s).faults = w.faults := rfl

@[simp] lemma sys_withSys (w : World pid) (s : System) : (w.withSys s).sys = s := rfl

lemma openExcl_new (h : w.faults 0 = none) (hf : w.sys.locks f = none) :
    (openExcl f : Prog ε (World pid) _) w =
      some (.ok none, (w.after 1).withSys (w.sys.setLock f (some none))) := by
  simp only [openExcl, fault_bind_run, h, sys_bind_run, sys_after, hf]
  rfl

lemma openExcl_finds (h : FindsLock f w) :
    (openExcl f : Prog ε (World pid) _) w = some (.ok (some .exist), w.after 1) := by
  rcases h with h | ⟨h, hf⟩
  · simp only [openExcl, fault_bind_run, h]
    rfl
  · simp only [openExcl, fault_bind_run, h, sys_bind_run, sys_after, Option.isSome_iff_ne_none.2 hf]
    rfl

lemma openExcl_fails {e : Errno} (h : w.faults 0 = some e) :
    (openExcl f : Prog ε (World pid) _) w = some (.ok (some e), w.after 1) := by
  simp only [openExcl, fault_bind_run, h]
  rfl

/-- What `readLock` reads when it returns. -/
lemma readLock_run {content : Option Pid} (h : w.faults 0 = none)
    (hf : w.sys.locks f = some content) :
    readLock f w = some (.ok (if w.faults 1 = none then content else none), w.after 2) := by
  simp only [readLock, fault_bind_run, h, sys_bind_run, sys_after, hf, faults_after, Nat.zero_add,
    after_after]
  cases w.faults 1 <;> rfl

lemma readLock_throws (h : w.faults 0 = none → w.sys.locks f = none) :
    ∃ e, readLock f w = some (.error e, w.after 1) := by
  cases h0 : w.faults 0 with
  | some e =>
      simp only [readLock, fault_bind_run, h0]
      exact ⟨_, rfl⟩
  | none =>
      simp only [readLock, fault_bind_run, h0, sys_bind_run, sys_after, h h0]
      exact ⟨_, rfl⟩

lemma runningPid_run {p : Pid} (h : w.faults 0 = none) :
    runningPid p w = some (.ok (w.sys.running p), w.after 1) := by
  simp only [runningPid, fault_bind_run, h, sys_bind_run]
  rfl

lemma runningPid_throws {p : Pid} (h : w.faults 0 ≠ none) :
    ∃ e, runningPid p w = some (.error e, w.after 1) := by
  obtain ⟨e, he⟩ := Option.ne_none_iff_exists'.1 h
  simp only [runningPid, fault_bind_run, he]
  exact ⟨_, rfl⟩

lemma sleep_run (h : w.faults 0 = none) : sleep w = some (.ok (), (w.after 1).slept) := by
  simp only [sleep, fault_bind_run, h]
  rfl

lemma sleep_throws (h : w.faults 0 ≠ none) : ∃ e, sleep w = some (.error e, w.after 1) := by
  obtain ⟨e, he⟩ := Option.ne_none_iff_exists'.1 h
  simp only [sleep, fault_bind_run, he]
  exact ⟨_, rfl⟩

/-! ### `get_lockfile` -/

lemma writePid_works (h : w.Works 3) :
    writePid f w = some (.ok (), (w.after 3).withSys (w.sys.setLock f (some (some pid)))) := by
  have h0 := h 0 (by decide)
  have h1 := h 1 (by decide)
  have h2 := h 2 (by decide)
  simp only [writePid, fault_bind_run, h0, faults_after, Nat.zero_add, h1, modifySys_bind_run,
    faults_withSys, after_after, h2, modifySys_run]
  simp [World.withSys, World.after, System.setLock]

/-- `ftruncate` fails. -/
lemma writePid_tears (h : w.Works 2) (h2 : w.faults 2 ≠ none) :
    ∃ e, writePid f w = some (.error e, (w.after 3).withSys
      (w.sys.setLock f (some (some (overwritten pid (w.sys.locks f).join))))) := by
  have h0 := h 0 (by decide)
  have h1 := h 1 (by decide)
  obtain ⟨e, he⟩ := Option.ne_none_iff_exists'.1 h2
  simp only [writePid, fault_bind_run, h0, faults_after, Nat.zero_add, h1, modifySys_bind_run,
    faults_withSys, after_after, he]
  exact ⟨_, rfl⟩

/-- Nothing is written. -/
lemma writePid_throws (h : ¬w.Works 2) :
    ∃ e w', writePid f w = some (.error e, w') ∧ w'.sys = w.sys := by
  cases h0 : w.faults 0 with
  | some e =>
      simp only [writePid, fault_bind_run, h0]
      exact ⟨_, _, rfl, rfl⟩
  | none =>
      cases h1 : w.faults 1 with
      | some e =>
          simp only [writePid, fault_bind_run, h0, faults_after, Nat.zero_add, h1]
          exact ⟨_, _, rfl, rfl⟩
      | none =>
          refine absurd (fun i hi => ?_) h
          interval_cases i
          · exact h0
          · exact h1

/-- The turn of `get_lockfile` behind an `open` that has found the lock file. -/
lemma getLockfile_finds (h : FindsLock f w) {r : Option Pid} {w₁ : World pid}
    (hread : readLock f (w.after 1) = some (.ok r, w₁)) :
    getLockfile block f (n + 1) w = (do
      match r with
      | none => writePid f
      | some lockPid =>
          if lockPid = pid then throw (.runtimeError (lit "prevent deadlock"))
          else if !(← runningPid lockPid) then writePid f
          else if !block then
            throw (.runtimeError (lit "lock on " ++ f ++ lit " would block and block is false"))
          else do
            sleep
            getLockfile block f n : Prog Exn (World pid) Unit) w₁ := by
  rw [getLockfile, Prog.bind_ok (openExcl_finds h)]
  exact Prog.bind_ok hread

/-- The turn of `get_lockfile` with the pid of another process. -/
lemma getLockfile_other {p : Pid} (hfinds : FindsLock f w) (h1 : w.faults 1 = none)
    (hlock : w.sys.locks f = some (some p)) (h2 : w.faults 2 = none) (hp : p ≠ pid)
    (h3 : w.faults 3 = none) : getLockfile block f (n + 1) w =
      (if w.sys.running p = false then writePid f
      else if block = false then
        throw (.runtimeError (lit "lock on " ++ f ++ lit " would block and block is false"))
      else do
        sleep
        getLockfile block f n : Prog Exn (World pid) Unit) (w.after 4) := by
  have hread : readLock f (w.after 1) = some (.ok (some p), w.after 3) := by
    have hrun := readLock_run (w := w.after 1) (f := f) (by simpa using h1) hlock
    simpa [h2] using hrun
  rw [getLockfile_finds hfinds hread]
  simp only [if_neg hp]
  rw [Prog.bind_ok (runningPid_run (w := w.after 3) (by simpa using h3))]
  cases hrun : w.sys.running p <;> cases block <;> simp [hrun]

lemma ComesToWrite.run {w₁ : World pid} (h : ComesToWrite block f n w w₁) :
    getLockfile block f n w = writePid f w₁ := by
  induction h with
  | new h0 hnone =>
      rw [getLockfile, Prog.bind_ok (openExcl_new h0 hnone)]
  | @unread n w content hfinds h1 hlock hnone =>
      have hread := readLock_run (w := w.after 1) (f := f) (by simpa using h1) hlock
      have hcontent : (if (w.after 1).faults 1 = none then content else none) = none := by
        split
        · next h2 => exact hnone h2
        · rfl
      rw [hcontent] at hread
      rw [getLockfile_finds hfinds hread]
      simp
  | stale hfinds h1 hlock h2 hp h3 hrunning =>
      rw [getLockfile_other hfinds h1 hlock h2 hp h3, if_pos hrunning]
  | slept hfinds h1 hlock h2 hp h3 hrunning hblock h4 _ ih =>
      rw [getLockfile_other hfinds h1 hlock h2 hp h3, if_neg (by simp [hrunning]),
        if_neg (by simp [hblock]), Prog.bind_ok (sleep_run (by simpa using h4))]
      simpa using ih

/-! ### The directories and the keys -/

lemma access_there (h : Accessible dir w) :
    (access dir : Prog ε (World pid) _) w = some (.ok none, w.after 1) := by
  simp only [access, fault_bind_run, h.1, sys_bind_run, sys_after, Option.isSome_iff_ne_none.2 h.2]
  rfl

lemma access_missing (h : Missing dir w) :
    (access dir : Prog ε (World pid) _) w = some (.ok (some .noent), w.after 1) := by
  rcases h with h | ⟨h, hdir⟩
  · simp only [access, fault_bind_run, h]
    rfl
  · simp only [access, fault_bind_run, h, sys_bind_run, sys_after, hdir]
    rfl

lemma access_fails {e : Errno} (h : w.faults 0 = some e) :
    (access dir : Prog ε (World pid) _) w = some (.ok (some e), w.after 1) := by
  simp only [access, fault_bind_run, h]
  rfl

/-- What `access` can say. -/
lemma access_cases (dir : Str) (w : World pid) :
    Accessible dir w ∨ Missing dir w ∨ ∃ e, w.faults 0 = some e ∧ e ≠ .noent := by
  cases h : w.faults 0 with
  | none =>
      by_cases hdir : w.sys.dirs dir = none
      · exact Or.inr (Or.inl (Or.inr ⟨h, hdir⟩))
      · exact Or.inl ⟨h, hdir⟩
  | some e =>
      by_cases he : e = .noent
      · exact Or.inr (Or.inl (Or.inl (by rw [h, he])))
      · exact Or.inr (Or.inr ⟨e, rfl, he⟩)

lemma World.Works.tail (h : w.Works (n + 1)) : (w.after 1).Works n :=
  fun i hi => h (i + 1) (by omega)

lemma World.works_succ_iff : w.Works (n + 1) ↔ w.faults 0 = none ∧ (w.after 1).Works n := by
  refine ⟨fun h => ⟨h 0 (by omega), h.tail⟩, ?_⟩
  rintro ⟨h0, h⟩ i hi
  cases i with
  | zero => exact h0
  | succ i => exact h i (by omega)

lemma reads_works {m : ℕ} (h : w.Works m) :
    (reads m : Prog ε (World pid) _) w = some (.ok none, w.after m) := by
  induction m generalizing w with
  | zero => rfl
  | succ m ih =>
      simp only [reads, fault_bind_run, h 0 (by omega)]
      rw [ih h.tail, after_after]

lemma reads_fails {i m : ℕ} (h : w.Works i) (hi : i < m) (hfault : w.faults i ≠ none) :
    ∃ e, (reads m : Prog ε (World pid) _) w = some (.ok (some e), w.after (i + 1)) := by
  induction m generalizing w i with
  | zero => omega
  | succ m ih =>
      cases i with
      | zero =>
          obtain ⟨e, he⟩ := Option.ne_none_iff_exists'.1 hfault
          simp only [reads, fault_bind_run, he]
          exact ⟨e, rfl⟩
      | succ i =>
          obtain ⟨e, he⟩ := ih (w := w.after 1) h.tail (by omega) hfault
          refine ⟨e, ?_⟩
          simp only [reads, fault_bind_run, h 0 (by omega)]
          rw [he, after_after]

/-- Calls of which one fails have a first one that does. -/
lemma exists_first_fault {m : ℕ} (h : ¬w.Works m) : ∃ i < m, w.Works i ∧ w.faults i ≠ none := by
  induction m generalizing w with
  | zero => exact absurd (fun i hi => by omega) h
  | succ m ih =>
      by_cases h0 : w.faults 0 = none
      · have hrest : ¬(w.after 1).Works m := fun hrest => h (World.works_succ_iff.2 ⟨h0, hrest⟩)
        obtain ⟨i, hi, hworks, hfault⟩ := ih hrest
        exact ⟨i + 1, by omega, World.works_succ_iff.2 ⟨h0, hworks⟩, hfault⟩
      · exact ⟨0, by omega, fun i hi => by omega, h0⟩

lemma readKey_reads {k : Str} (h : ReadsKey dir k w) :
    (readKey dir : Prog ε (World pid) _) w = some (.ok (some k), w.after (1 + readCalls k)) := by
  obtain ⟨hworks, hkey⟩ := h
  rw [Nat.add_comm] at hworks ⊢
  simp only [readKey, fault_bind_run, hworks 0 (by omega), sys_bind_run, sys_after, hkey]
  change (reads (readCalls k) >>= _) (w.after 1) = _
  rw [Prog.bind_ok (reads_works hworks.tail), after_after]
  rfl

lemma readKey_fails {m : ℕ} (h : FailsToRead dir w m) :
    (readKey dir : Prog ε (World pid) _) w = some (.ok none, w.after m) := by
  cases h with
  | unopened h0 =>
      obtain ⟨e, he⟩ := Option.ne_none_iff_exists'.1 h0
      simp only [readKey, fault_bind_run, he]
      rfl
  | missing h0 hkey =>
      simp only [readKey, fault_bind_run, h0, sys_bind_run, sys_after, hkey]
      rfl
  | @read k i hkey hi hworks hfault =>
      rw [Nat.add_comm] at hworks hfault
      obtain ⟨e, he⟩ := reads_fails (ε := ε) (w := w.after 1) hworks.tail hi hfault
      simp only [readKey, fault_bind_run, hworks 0 (by omega), sys_bind_run, sys_after, hkey]
      change (reads (readCalls k) >>= _) (w.after 1) = _
      rw [Prog.bind_ok he, after_after, Nat.add_comm 2 i]
      rfl

lemma readsKey_or_fails (dir : Str) (w : World pid) :
    (∃ k, ReadsKey dir k w) ∨ ∃ m, FailsToRead dir w m := by
  by_cases h0 : w.faults 0 = none
  · cases hkey : (w.sys.dirs dir).bind (·.key) with
    | none => exact Or.inr ⟨1, .missing h0 hkey⟩
    | some k =>
        by_cases hreads : (w.after 1).Works (readCalls k)
        · refine Or.inl ⟨k, ?_, hkey⟩
          rw [Nat.add_comm]
          exact World.works_succ_iff.2 ⟨h0, hreads⟩
        · obtain ⟨i, hi, hworks, hfault⟩ := exists_first_fault hreads
          refine Or.inr ⟨2 + i, .read hkey hi ?_ ?_⟩
          · rw [Nat.add_comm]
            exact World.works_succ_iff.2 ⟨h0, hworks⟩
          · rw [Nat.add_comm]
            exact hfault
  · exact Or.inr ⟨1, .unopened h0⟩

lemma writeLoop_works {m : ℕ} {rest : Str} (h : w.Works m) :
    ∃ w', writeLoop dir m rest w = some (.ok (), w') := by
  induction m generalizing w rest with
  | zero => exact ⟨w, rfl⟩
  | succ m ih =>
      simp only [writeLoop, fault_bind_run, h 0 (by omega), modifySys_bind_run]
      exact ih h.tail

lemma writeLoop_fails {m : ℕ} {rest : Str} (h : ¬w.Works m) :
    ∃ e w', writeLoop dir m rest w = some (.error e, w') := by
  induction m generalizing w rest with
  | zero => exact absurd (fun i hi => by omega) h
  | succ m ih =>
      cases h0 : w.faults 0 with
      | some e =>
          simp only [writeLoop, fault_bind_run, h0]
          exact ⟨_, _, rfl⟩
      | none =>
          simp only [writeLoop, fault_bind_run, h0, modifySys_bind_run]
          exact ih fun hrest => h (World.works_succ_iff.2 ⟨h0, hrest⟩)

lemma writeKey_works (h : WritesKey dir key w) : ∃ w', writeKey dir key w = some (.ok (), w') := by
  obtain ⟨hworks, hdir⟩ := h
  obtain ⟨b, hb⟩ := Option.ne_none_iff_exists'.1 hdir
  rw [Nat.add_comm] at hworks
  simp only [writeKey, fault_bind_run, hworks 0 (by omega), sys_bind_run, sys_after, hb,
    modifySys_bind_run]
  exact writeLoop_works hworks.tail

lemma writeKey_fails (h : ¬WritesKey dir key w) :
    ∃ e w', writeKey dir key w = some (.error e, w') := by
  cases h0 : w.faults 0 with
  | some e =>
      simp only [writeKey, fault_bind_run, h0]
      exact ⟨_, _, rfl⟩
  | none =>
      cases hb : w.sys.dirs dir with
      | none =>
          simp only [writeKey, fault_bind_run, h0, sys_bind_run, sys_after, hb]
          exact ⟨_, _, rfl⟩
      | some b =>
          simp only [writeKey, fault_bind_run, h0, sys_bind_run, sys_after, hb, modifySys_bind_run]
          refine writeLoop_fails fun hrest => h ⟨?_, by simp [hb]⟩
          rw [Nat.add_comm]
          exact World.works_succ_iff.2 ⟨h0, hrest⟩

/-- `mkdir` of a path, whether the directory is there or not. -/
lemma mkdir_run (buf : Str) (h : w.faults 0 = none) :
    ∃ r, (r = none ∨ r = some .exist) ∧ (mkdir buf : Prog ε (World pid) _) w =
      some (.ok r, (w.after 1).withSys (w.sys.made buf)) := by
  simp only [mkdir, fault_bind_run, h, sys_bind_run]
  by_cases hdir : ((w.after 1).sys.dirs buf).isSome = true
  · obtain ⟨b, hb⟩ := Option.isSome_iff_exists.1 hdir
    rw [sys_after] at hb
    have hsame : w.sys.made buf = w.sys := by
      rw [System.made, hb, Option.getD_some, System.setDir_self hb]
    rw [if_pos hdir, hsame]
    exact ⟨some .exist, Or.inr rfl, rfl⟩
  · have hnone : w.sys.dirs buf = none := Option.not_isSome_iff_eq_none.1 hdir
    rw [if_neg hdir, modifySys_bind_run, System.made, hnone]
    exact ⟨none, Or.inl rfl, rfl⟩

lemma mkdir_fault {buf : Str} {e : Errno} (h : w.faults 0 = some e) :
    (mkdir buf : Prog ε (World pid) _) w = some (.ok (some e), w.after 1) := by
  simp only [mkdir, fault_bind_run, h]
  rfl

lemma MakesDirs.run {bufs : List Str} (h : MakesDirs bufs w w') :
    mkdirs bufs w = some (.ok (), w') := by
  induction h with
  | nil => rfl
  | made h0 _ ih =>
      obtain ⟨r, hr, hrun⟩ := mkdir_run _ h0
      rw [mkdirs, Prog.bind_ok hrun]
      rcases hr with rfl | rfl
      · exact ih
      · exact ih
  | exist h0 _ ih =>
      rw [mkdirs, Prog.bind_ok (mkdir_fault h0)]
      exact ih

lemma mkdirs_fails {bufs : List Str} {i : ℕ} {e : Errno} (hi : i < bufs.length)
    (h : w.faults i = some e) (he : e ≠ .exist) :
    ∃ e' w', mkdirs bufs w = some (.error e', w') := by
  induction bufs generalizing w i with
  | nil => simp at hi
  | cons buf bufs ih =>
      cases h0 : w.faults 0 with
      | none =>
          obtain ⟨r, hr, hrun⟩ := mkdir_run buf h0
          rw [mkdirs, Prog.bind_ok hrun]
          cases i with
          | zero => simp [h0] at h
          | succ i =>
              have hrest := ih (w := (w.after 1).withSys (w.sys.made buf)) (by simpa using hi) h
              rcases hr with rfl | rfl
              · exact hrest
              · exact hrest
      | some e₀ =>
          rw [mkdirs, Prog.bind_ok (mkdir_fault h0)]
          cases e₀ with
          | exist =>
              cases i with
              | zero => simp_all
              | succ i => exact ih (w := w.after 1) (by simpa using hi) h
          | noent => exact ⟨_, _, rfl⟩
          | other message => exact ⟨_, _, rfl⟩

lemma makesDirs_or_fails (bufs : List Str) (w : World pid) :
    (∃ w', MakesDirs bufs w w') ∨ ∃ i < bufs.length, ∃ e, w.faults i = some e ∧ e ≠ .exist := by
  induction bufs generalizing w with
  | nil => exact Or.inl ⟨w, .nil⟩
  | cons buf bufs ih =>
      cases h0 : w.faults 0 with
      | none =>
          rcases ih ((w.after 1).withSys (w.sys.made buf)) with ⟨w', h⟩ | ⟨i, hi, e, h, he⟩
          · exact Or.inl ⟨w', .made h0 h⟩
          · exact Or.inr ⟨i + 1, by simpa using hi, e, h, he⟩
      | some e₀ =>
          by_cases he₀ : e₀ = .exist
          · rcases ih (w.after 1) with ⟨w', h⟩ | ⟨i, hi, e, h, he⟩
            · exact Or.inl ⟨w', .exist (he₀ ▸ h0) h⟩
            · exact Or.inr ⟨i + 1, by simpa using hi, e, h, he⟩
          · exact Or.inr ⟨0, by simp, e₀, h0, he₀⟩

lemma access_not_there (h : w.faults 0 = none → w.sys.dirs dir = none) :
    ∃ e, (access dir : Prog ε (World pid) _) w = some (.ok (some e), w.after 1) := by
  cases h0 : w.faults 0 with
  | none => exact ⟨_, access_missing (Or.inr ⟨h0, h h0⟩)⟩
  | some e => exact ⟨e, access_fails h0⟩

lemma Creates.run {path : Str} (h : Creates path w w') :
    createDirectories path w = some (.ok (), w') := by
  cases h with
  | there h0 hdir =>
      rw [createDirectories, Prog.bind_ok (access_there ⟨h0, hdir⟩)]
      rfl
  | makes hnot hmakes =>
      obtain ⟨e, he⟩ := access_not_there (ε := Exn) hnot
      rw [createDirectories, Prog.bind_ok he]
      exact hmakes.run

lemma createDirectories_fails {path : Str} {i : ℕ} {e : Errno}
    (hnot : w.faults 0 = none → w.sys.dirs path = none) (hi : i < (beginnings path).length)
    (h : w.faults (1 + i) = some e) (he : e ≠ .exist) :
    ∃ e' w', createDirectories path w = some (.error e', w') := by
  obtain ⟨e₀, he₀⟩ := access_not_there (ε := Exn) hnot
  rw [createDirectories, Prog.bind_ok he₀]
  exact mkdirs_fails (w := w.after 1) hi (by simpa [Nat.add_comm] using h) he

lemma creates_or_fails (path : Str) (w : World pid) :
    (∃ w', Creates path w w') ∨ ((w.faults 0 = none → w.sys.dirs path = none) ∧
      ∃ i < (beginnings path).length, ∃ e, w.faults (1 + i) = some e ∧ e ≠ .exist) := by
  by_cases hthere : Accessible path w
  · exact Or.inl ⟨_, .there hthere.1 hthere.2⟩
  · have hnot : w.faults 0 = none → w.sys.dirs path = none := by
      intro h0
      by_contra hdir
      exact hthere ⟨h0, hdir⟩
    rcases makesDirs_or_fails (beginnings path) (w.after 1) with ⟨w', h⟩ | ⟨i, hi, e, h, he⟩
    · exact Or.inl ⟨w', .makes hnot h⟩
    · exact Or.inr ⟨hnot, i, hi, e, by simpa [Nat.add_comm] using h, he⟩

lemma accessKey_there (h : w.faults 0 = none) (hkey : (w.sys.dirs dir).bind (·.key) ≠ none) :
    (accessKey dir : Prog ε (World pid) _) w = some (.ok none, w.after 1) := by
  simp only [accessKey, fault_bind_run, h, sys_bind_run, sys_after,
    Option.isSome_iff_ne_none.2 hkey]
  rfl

lemma accessKey_not_there (h : w.faults 0 = none → (w.sys.dirs dir).bind (·.key) = none) :
    ∃ e, (accessKey dir : Prog ε (World pid) _) w = some (.ok (some e), w.after 1) := by
  cases h0 : w.faults 0 with
  | none =>
      simp only [accessKey, fault_bind_run, h0, sys_bind_run, sys_after, h h0]
      exact ⟨_, rfl⟩
  | some e =>
      simp only [accessKey, fault_bind_run, h0]
      exact ⟨_, rfl⟩

lemma unlock_works (h : w.faults 0 = none) (hf : w.sys.locks f = some (some pid)) :
    unlock f w = some (.ok (), (w.after 1).withSys (w.sys.setLock f none)) := by
  simp only [unlock, fault_bind_run, h, sys_bind_run, sys_after, hf]
  rfl

lemma unlock_fails (h : w.faults 0 ≠ none) : ∃ e, unlock f w = some (.error e, w.after 1) := by
  obtain ⟨e, he⟩ := Option.ne_none_iff_exists'.1 h
  simp only [unlock, fault_bind_run, he]
  exact ⟨_, rfl⟩

end BucketOpen

end Mycelium
