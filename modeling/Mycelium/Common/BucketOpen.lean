import Mathlib.Data.List.DropRight
import Mycelium.Lib.Hoare
import Mycelium.Common.BucketLock

/-!
# Opening a bucket

The two constructors of `big_hash_bucket`, one system call at a time, where every call can fail.
The constructors take the lock file of a bucket and go on with its directory.  They give the lock
file back when they try the next bucket, so that a constructor that returns holds the lock file of
its bucket and no other one.
-/

namespace Mycelium

open Lib BigHash BucketLock

namespace BucketOpen

/-! ### The system -/

/-- `errno`, as far as the code tells the errors apart. -/
inductive Errno where
  | noent
  | exist
  | other (message : Str)
deriving DecidableEq, Repr

def strerror : Errno → Str
  | .noent => lit "No such file or directory"
  | .exist => lit "File exists"
  | .other message => message

/-- The exception of `err_sys`. -/
def errSys (s : Str) (e : Errno) : Exn :=
  .runtimeError (s ++ lit " error: " ++ strerror e ++ lit "\n")

/-- The lock files with the pid in them, none in an empty one. -/
abbrev Locks := Str → Option (Option Pid)

/-- The directories with the files in them, the lock files, and the processes. -/
structure System where
  dirs : Str → Option Bucket
  locks : Locks
  running : Pid → Bool

namespace System

def setDir (s : System) (path : Str) (b : Option Bucket) : System :=
  { s with dirs := Function.update s.dirs path b }

def setLock (s : System) (f : Str) (c : Option (Option Pid)) : System :=
  { s with locks := Function.update s.locks f c }

/-- The directories after `mkdir`. -/
def made (s : System) (path : Str) : System := s.setDir path (some ((s.dirs path).getD {}))

end System

/-- The lock file has this pid in it. -/
def Owns (pid : Pid) (locks : Locks) (f : Str) : Prop := locks f = some (some pid)

/-- What the other processes do while the process sleeps.  None of them writes its pid. -/
structure Others (pid : Pid) where
  act : System → System
  honest : ∀ s f, Owns pid (act s).locks f → Owns pid s.locks f

/-- The system with what is to come: which of the next calls fail, and what happens in the next
sleeps. -/
structure World (pid : Pid) where
  sys : System
  faults : ℕ → Option Errno
  sleeps : ℕ → Others pid

variable {pid : Pid} {ε : Type}

/-- The world with another system. -/
def World.withSys (w : World pid) (s : System) : World pid := { w with sys := s }

/-- The world after some calls. -/
def World.after (w : World pid) (n : ℕ) : World pid :=
  { w with faults := fun i => w.faults (i + n) }

/-- The world after a sleep. -/
def World.slept (w : World pid) : World pid :=
  { w with sys := (w.sleeps 0).act w.sys, sleeps := fun n => w.sleeps (n + 1) }

/-- The error of the next call, if it fails for a reason of its own. -/
def fault : Prog ε (World pid) (Option Errno) :=
  .step fun w => (w.faults 0, w.after 1)

def sys : Prog ε (World pid) System := .step fun w => (w.sys, w)

def modifySys (g : System → System) : Prog ε (World pid) Unit :=
  .step fun w => ((), w.withSys (g w.sys))

/-- `access` of a directory. -/
def access (path : Str) : Prog ε (World pid) (Option Errno) := do
  match ← fault with
  | some e => return some e
  | none => return if ((← sys).dirs path).isSome then none else some .noent

/-- `access` of the key file in a directory. -/
def accessKey (path : Str) : Prog ε (World pid) (Option Errno) := do
  match ← fault with
  | some e => return some e
  | none => return if (((← sys).dirs path).bind (·.key)).isSome then none else some .noent

def mkdir (path : Str) : Prog ε (World pid) (Option Errno) := do
  match ← fault with
  | some e => return some e
  | none =>
      if ((← sys).dirs path).isSome then return some .exist
      else do
        modifySys (·.setDir path (some {}))
        return none

/-- Some calls of `read`, up to the first that fails. -/
def reads : ℕ → Prog ε (World pid) (Option Errno)
  | 0 => return none
  | n + 1 => do
      match ← fault with
      | some e => return some e
      | none => reads n

/-! ### The functions -/

/-- The beginnings of a path up to a slash behind its first character, and the path. -/
def beginnings (path : Str) : List Str :=
  ((List.range' 1 (path.length - 1)).filter (path[·]? = some Byte.slash)).map (path.take ·)
    ++ [path]

/-- The loop of `create_directories`. -/
def mkdirs : List Str → Prog Exn (World pid) Unit
  | [] => return
  | buf :: bufs => do
      match ← mkdir buf with
      | none | some .exist => mkdirs bufs
      | some e => throw (errSys (lit "mkdir \"" ++ buf ++ lit "\"") e)

/-- `create_directories`. -/
def createDirectories (path : Str) : Prog Exn (World pid) Unit := do
  match ← access path with
  | none => return
  | some _ => mkdirs (beginnings path)

/-- `read_key`; `none` when it fails.  A key is read in pieces of 1024 bytes, and once more at its
end. -/
def readKey (dir : Str) : Prog ε (World pid) (Option Str) := do
  match ← fault with
  | some _ => return none
  | none =>
      match ((← sys).dirs dir).bind (·.key) with
      | none => return none
      | some key =>
          match ← reads ((key.length + 1023) / 1024 + 1) with
          | some _ => return none
          | none => return some key

/-- The loop of `write_key`, when the number of pieces is left to write. -/
def writeLoop (dir : Str) : ℕ → Str → Prog Exn (World pid) Unit
  | 0, _ => return
  | n + 1, rest => do
      match ← fault with
      | some e => throw (errSys (lit "write") e)
      | none => do
          modifySys fun s => s.setDir dir ((s.dirs dir).map fun b =>
            { b with key := some (b.key.getD [] ++ rest.take 8192) })
          writeLoop dir n (rest.drop 8192)

/-- `write_key`.  A key is written in pieces of 8192 bytes. -/
def writeKey (dir key : Str) : Prog Exn (World pid) Unit := do
  match ← fault with
  | some e => throw (errSys (lit "open") e)
  | none =>
      match (← sys).dirs dir with
      | none => throw (errSys (lit "open") .noent)
      | some b => do
          modifySys (·.setDir dir (some { b with key := some [] }))
          writeLoop dir ((key.length + 8191) / 8192) key

/-- The pid that stands in a file when the digits of `pid` were written over its content. -/
def overwritten (pid : Pid) : Option Pid → Pid
  | none => pid
  | some p =>
      let k := (toString p).length - (toString pid).length
      pid * 10 ^ k + p % 10 ^ k

/-- `write_pid`. -/
def writePid (f : Str) : Prog Exn (World pid) Unit := do
  match ← fault with
  | some e => throw (errSys (lit "lseek") e)
  | none =>
      match ← fault with
      | some e => throw (errSys (lit "write") e)
      | none => do
          modifySys fun s => s.setLock f (some (some (overwritten pid (s.locks f).join)))
          match ← fault with
          | some e => throw (errSys (lit "ftruncate") e)
          | none => modifySys (·.setLock f (some (some pid)))

/-- `running_pid`. -/
def runningPid (p : Pid) : Prog Exn (World pid) Bool := do
  match ← fault with
  | some e => throw (errSys (lit "opendir proc") e)
  | none => return (← sys).running p

/-- `open(f, O_CREAT | O_EXCL | O_RDWR)`. -/
def openExcl (f : Str) : Prog ε (World pid) (Option Errno) := do
  match ← fault with
  | some e => return some e
  | none =>
      if ((← sys).locks f).isSome then return some .exist
      else do
        modifySys (·.setLock f (some none))
        return none

/-- `open(f, O_RDWR)` and `read` of a lock file; nothing is read from an empty file and when `read`
fails. -/
def readLock (f : Str) : Prog Exn (World pid) (Option Pid) := do
  match ← fault with
  | some e => throw (errSys (lit "open") e)
  | none =>
      match (← sys).locks f with
      | none => throw (errSys (lit "open") .noent)
      | some content =>
          match ← fault with
          | some _ => return none
          | none => return content

/-- `nanosleep`. -/
def sleep : Prog Exn (World pid) Unit := do
  match ← fault with
  | some e => throw (errSys (lit "nanosleep") e)
  | none => .step fun w => ((), w.slept)

/-- `get_lockfile`, as long as it sleeps less often than the number says. -/
def getLockfile (block : Bool) (f : Str) : ℕ → Prog Exn (World pid) Unit
  | 0 => .hang
  | n + 1 => do
      match ← openExcl f with
      | none => writePid f
      | some .exist =>
          match ← readLock f with
          | none => writePid f
          | some lockPid =>
              if lockPid = pid then throw (.runtimeError (lit "prevent deadlock"))
              else if !(← runningPid lockPid) then writePid f
              else if !block then
                throw (.runtimeError (lit "lock on " ++ f ++ lit " would block and block is false"))
              else do
                sleep
                getLockfile block f n
      | some e => throw (errSys f e)

/-- `unlock`. -/
def unlock (f : Str) : Prog Exn (World pid) Unit := do
  match ← fault with
  | some e => throw (errSys (lit "unlink") e)
  | none =>
      if ((← sys).locks f).isSome then modifySys (·.setLock f none)
      else throw (errSys (lit "unlink") .noent)

/-! ### The constructors -/

/-- The statements of the constructors that can throw. -/
inductive Statement where
  | createBase
  | lock
  | cantAccess
  | createBucket
  | writeKey
  | unlock
  | outOfBuckets
  | emptyBucket
  | accessBucket
  | missingKey
  | cantReadKey
deriving DecidableEq, Repr

/-- An exception that leaves a constructor, with the statement that throws it and the value of
`m_lock_file`. -/
structure Failure where
  statement : Statement
  lockFile : Str
  exn : Exn
deriving DecidableEq, Repr

/-- A bucket that has been opened. -/
structure Opened where
  lockFile : Str
  key : Str
  bucketDir : Str
deriving DecidableEq, Repr

/-- A statement of a constructor. -/
def stmt {α : Type} (st : Statement) (f : Str) (x : Prog Exn (World pid) α) :
    Prog Failure (World pid) α :=
  .rethrow (fun e => ⟨st, f, e⟩) x

/-- The operator `/` of paths. -/
def slash (p q : Str) : Str :=
  if p = [] ∨ p.getLast? = some Byte.slash then p ++ q else p ++ Byte.slash :: q

/-- The loop of the constructor of a key over the buckets. -/
def probe (fuel : ℕ) (base key : Str) : List ℕ → Prog Failure (World pid) Opened
  | [] => throw ⟨.outOfBuckets, [], .runtimeError (lit "out of buckets")⟩
  | n :: ns => do
      let dir := base ++ lit "-" ++ lit (toString n)
      let f := dir ++ lit ".lock"
      stmt .lock f (getLockfile true f fuel)
      match ← access dir with
      | none =>
          match ← readKey dir with
          | some k =>
              if k = key then return ⟨f, key, dir⟩
              else do
                stmt .unlock f (unlock f)
                probe fuel base key ns
          | none => do
              stmt .writeKey f (writeKey dir key)
              return ⟨f, key, dir⟩
      | some .noent => do
          stmt .createBucket f (createDirectories dir)
          stmt .writeKey f (writeKey dir key)
          return ⟨f, key, dir⟩
      | some _ => throw ⟨.cantAccess, f, .runtimeError (lit "can't access: " ++ dir)⟩

/-- The constructor of a root directory and a key; `sha1` gives the hash value in hexadecimal
digits. -/
def ofKey (sha1 : Str → Str) (fuel : ℕ) (rootDir key : Str) : Prog Failure (World pid) Opened := do
  let toplevel := slash rootDir ((sha1 key).take 2)
  stmt .createBase [] (createDirectories toplevel)
  probe fuel (slash toplevel ((sha1 key).drop 2)) key (List.range' 0 maxBuckets)

/-- The constructor of a bucket directory. -/
def ofBucket (fuel : ℕ) (bucket : Str) (block : Bool) : Prog Failure (World pid) Opened :=
  let dir := bucket.rdropWhile (· == Byte.slash)
  let f := dir ++ lit ".lock"
  if dir = [] then throw ⟨.emptyBucket, [], .runtimeError (lit "empty bucket")⟩
  else do
    match ← access dir with
    | some e => throw ⟨.accessBucket, f, errSys (lit "access " ++ dir) e⟩
    | none =>
        match ← accessKey dir with
        | some _ => throw ⟨.missingKey, f, .runtimeError (lit "missing key file" ++ dir)⟩
        | none => do
            stmt .lock f (getLockfile block f fuel)
            match ← readKey dir with
            | none => throw ⟨.cantReadKey, f, .runtimeError (lit "can't read key: " ++ dir)⟩
            | some key => return ⟨f, key, dir⟩

/-- The two constructors. -/
inductive Constructor where
  | ofKey (rootDir key : Str)
  | ofBucket (bucket : Str) (block : Bool)
deriving DecidableEq, Repr

def Constructor.run (sha1 : Str → Str) (fuel : ℕ) : Constructor → Prog Failure (World pid) Opened
  | .ofKey rootDir key => BucketOpen.ofKey sha1 fuel rootDir key
  | .ofBucket bucket block => BucketOpen.ofBucket fuel bucket block

/-- A bucket `b` with a key, no lock files, and no other processes; the calls fail as given. -/
def World.oneBucket (faults : ℕ → Option Errno) : World 7 where
  sys :=
    { dirs := fun path => if path = lit "b" then some { key := some (lit "k") } else none
      locks := fun _ => none
      running := fun _ => false }
  faults := faults
  sleeps _ := { act := id, honest := fun _ _ h => h }

/-! ### Runs -/

section

variable {α : Type} {w w' : World pid}

/-- The code behind a call that can fail. -/
lemma fault_bind_run (k : Option Errno → Prog ε (World pid) α) :
    (fault >>= k) w = k (w.faults 0) (w.after 1) := rfl

lemma sys_bind_run (k : System → Prog ε (World pid) α) : (sys >>= k) w = k w.sys w := rfl

lemma modifySys_run (g : System → System) (w : World pid) :
    (modifySys g : Prog ε (World pid) _) w = some (.ok (), w.withSys (g w.sys)) := rfl

lemma modifySys_bind_run (g : System → System) (k : Unit → Prog ε (World pid) α) :
    (modifySys g >>= k) w = k () (w.withSys (g w.sys)) := rfl

lemma stmt_ok {x : Prog Exn (World pid) α} {a : α} (hx : x w = some (.ok a, w')) (st : Statement)
    (f : Str) : stmt st f x w = some (.ok a, w') := by
  rw [stmt, Prog.rethrow_apply, hx]
  rfl

lemma stmt_error {x : Prog Exn (World pid) α} {e : Exn} (hx : x w = some (.error e, w'))
    (st : Statement) (f : Str) : stmt st f x w = some (.error ⟨st, f, e⟩, w') := by
  rw [stmt, Prog.rethrow_apply, hx]
  rfl

end

/-! ### Calls that do not touch the lock files -/

/-- A property of the lock files. -/
def on (pid : Pid) (J : Locks → Prop) (w : World pid) : Prop := J w.sys.locks

section

variable {J : Locks → Prop} {E : ε → World pid → Prop} {α : Type}
  {Q : α → World pid → Prop}

lemma fault_bind {k : Option Errno → Prog ε (World pid) α}
    (hfails : ∀ e, Prog.Triple (on pid J) (k (some e)) Q E)
    (hworks : Prog.Triple (on pid J) (k none) Q E) :
    Prog.Triple (on pid J) (fault >>= k) Q E := by
  refine .bind (R := fun _ => on pid J) (.step fun _ h => h) fun e => ?_
  cases e with
  | some e => exact hfails e
  | none => exact hworks

lemma sys_bind {k : System → Prog ε (World pid) α} (hk : ∀ s, Prog.Triple (on pid J) (k s) Q E) :
    Prog.Triple (on pid J) (sys >>= k) Q E :=
  .bind (R := fun _ => on pid J) (.step fun _ h => h) hk

lemma keep {a : α} : Prog.Triple (on pid J) (pure a : Prog ε (World pid) α) (fun _ => on pid J) E :=
  .pure fun _ h => h

lemma modifySys_spec {J' : Locks → Prop} {g : System → System}
    (hg : ∀ s, J s.locks → J' (g s).locks) :
    Prog.Triple (on pid J) (modifySys g) (fun _ => on pid J') E :=
  .step fun w h => hg w.sys h

lemma access_spec (path : Str) : Prog.Triple (on pid J) (access path) (fun _ => on pid J) E :=
  fault_bind (fun _ => keep) (sys_bind fun _ => keep)

lemma accessKey_spec (path : Str) : Prog.Triple (on pid J) (accessKey path) (fun _ => on pid J) E :=
  fault_bind (fun _ => keep) (sys_bind fun _ => keep)

lemma mkdir_spec (path : Str) : Prog.Triple (on pid J) (mkdir path) (fun _ => on pid J) E :=
  fault_bind (fun _ => keep) (sys_bind fun _ => .ite (fun _ => keep) fun _ =>
    .bind (modifySys_spec fun _ h => h) fun _ => keep)

lemma reads_spec (n : ℕ) : Prog.Triple (on pid J) (reads n) (fun _ => on pid J) E := by
  induction n with
  | zero => exact keep
  | succ n ih => exact fault_bind (fun _ => keep) ih

lemma readKey_spec (dir : Str) : Prog.Triple (on pid J) (readKey dir) (fun _ => on pid J) E := by
  refine fault_bind (fun _ => keep) (sys_bind fun s => ?_)
  cases hkey : (s.dirs dir).bind (·.key) with
  | none => exact keep
  | some key =>
      refine .bind (reads_spec _) fun e => ?_
      cases e with
      | none => exact keep
      | some e => exact keep

end

/-- An exception, with the lock files as they were. -/
lemma raise {J : Locks → Prop} {α : Type} {Q : α → World pid → Prop} {e : ε} :
    Prog.Triple (on pid J) (throw e : Prog ε (World pid) α) Q fun _ => on pid J :=
  .throw fun _ h => h

/-- An exception, whatever it leaves. -/
lemma throws {α : Type} {P : World pid → Prop} {Q : α → World pid → Prop} {e : ε} :
    Prog.Triple P (throw e : Prog ε (World pid) α) Q fun _ _ => True :=
  .throw fun _ _ => trivial

/-- The program leaves the lock files alone, when it returns and when it throws. -/
def Calm {α : Type} (x : Prog Exn (World pid) α) : Prop :=
  ∀ J, Prog.Triple (on pid J) x (fun _ => on pid J) fun _ => on pid J

lemma Calm.returns {α : Type} {x : Prog Exn (World pid) α} (hx : Calm x) (J : Locks → Prop) :
    Prog.Triple (on pid J) x (fun _ => on pid J) fun _ _ => True :=
  .conseq (hx J) (fun _ h => h) (fun _ _ h => h) fun _ _ _ => trivial

lemma mkdirs_calm (bufs : List Str) : Calm (mkdirs bufs : Prog Exn (World pid) Unit) := by
  intro J
  induction bufs with
  | nil => exact keep
  | cons buf bufs ih =>
      refine .bind (mkdir_spec buf) fun e => ?_
      cases e with
      | none => exact ih
      | some e =>
          cases e with
          | exist => exact ih
          | _ => exact raise

lemma createDirectories_calm (path : Str) :
    Calm (createDirectories path : Prog Exn (World pid) Unit) := by
  intro J
  refine .bind (access_spec path) fun e => ?_
  cases e with
  | none => exact keep
  | some e => exact mkdirs_calm _ J

lemma writeLoop_calm (dir : Str) (n : ℕ) (rest : Str) :
    Calm (writeLoop dir n rest : Prog Exn (World pid) Unit) := by
  intro J
  induction n generalizing rest with
  | zero => exact keep
  | succ n ih =>
      exact fault_bind (fun _ => raise) (.bind (modifySys_spec fun _ h => h) fun _ => ih _)

lemma writeKey_calm (dir key : Str) : Calm (writeKey dir key : Prog Exn (World pid) Unit) := by
  intro J
  refine fault_bind (fun _ => raise) (sys_bind fun s => ?_)
  cases s.dirs dir with
  | none => exact raise
  | some b => exact .bind (modifySys_spec fun _ h => h) fun _ => writeLoop_calm dir _ _ J

lemma runningPid_calm (p : Pid) : Calm (runningPid p : Prog Exn (World pid) Bool) :=
  fun _ => fault_bind (fun _ => raise) (sys_bind fun _ => keep)

lemma readLock_calm (f : Str) : Calm (readLock f : Prog Exn (World pid) (Option Pid)) := by
  intro J
  refine fault_bind (fun _ => raise) (sys_bind fun s => ?_)
  cases s.locks f with
  | none => exact raise
  | some content => exact fault_bind (fun _ => keep) keep

/-! ### Taking and giving back a lock file -/

section

/-- No lock file has the pid that did not have it at the beginning. -/
def Clean (pid : Pid) (l₀ locks : Locks) : Prop :=
  ∀ g, Owns pid locks g → Owns pid l₀ g

/-- The lock file has the pid, and no other has it that did not have it at the beginning. -/
def Holds (pid : Pid) (l₀ : Locks) (f : Str) (locks : Locks) :
    Prop :=
  Owns pid locks f ∧ ∀ g, g ≠ f → Owns pid locks g → Owns pid l₀ g

variable {l₀ : Locks}

lemma writePid_spec (f : Str) :
    Prog.Triple (on pid (Clean pid l₀)) (writePid f) (fun _ => on pid (Holds pid l₀ f))
      fun _ _ => True := by
  -- whatever stands in the lock file before `ftruncate`, the other ones are as they were
  refine fault_bind (fun _ => throws) (fault_bind (fun _ => throws)
    (.bind (R := fun _ => on pid fun locks => ∀ g, g ≠ f → Owns pid locks g → Owns pid l₀ g)
      (modifySys_spec fun s hs g hg hown => hs g ?_) fun _ => fault_bind (fun _ => throws)
        (modifySys_spec fun s hs => ⟨?_, fun g hg hown => hs g hg ?_⟩)))
  · simpa [Owns, System.setLock, hg] using hown
  · simp [Owns, System.setLock]
  · simpa [Owns, System.setLock, hg] using hown

/-- A new lock file is empty. -/
lemma openExcl_spec (f : Str) {E : ε → World pid → Prop} :
    Prog.Triple (on pid (Clean pid l₀)) (openExcl f) (fun _ => on pid (Clean pid l₀)) E := by
  refine fault_bind (fun _ => keep) (sys_bind fun _ => .ite (fun _ => keep) fun _ =>
    .bind (modifySys_spec fun s hs g hown => hs g ?_) fun _ => keep)
  have hne : g ≠ f := by
    rintro rfl
    simp [Owns, System.setLock] at hown
  simpa [Owns, System.setLock, hne] using hown

lemma clean_slept {w : World pid} (hw : Clean pid l₀ w.sys.locks) :
    Clean pid l₀ w.slept.sys.locks :=
  fun g hown => hw g ((w.sleeps 0).honest w.sys g hown)

/-- `get_lockfile` takes the lock file when it returns. -/
lemma getLockfile_spec (block : Bool) (f : Str) (n : ℕ) :
    Prog.Triple (on pid (Clean pid l₀)) (getLockfile block f n) (fun _ => on pid (Holds pid l₀ f))
      fun _ _ => True := by
  induction n with
  | zero => exact .hang
  | succ n ih =>
      refine .bind (openExcl_spec f) fun e => ?_
      cases e with
      | none => exact writePid_spec f
      | some e =>
          cases e with
          | exist =>
              refine .bind ((readLock_calm f).returns _) fun lockPid => ?_
              cases lockPid with
              | none => exact writePid_spec f
              | some lockPid =>
                  refine .ite (fun _ => throws) fun _ =>
                    .bind ((runningPid_calm lockPid).returns _) fun _ => ?_
                  refine .ite (fun _ => writePid_spec f) fun _ => .ite (fun _ => throws) fun _ => ?_
                  exact .bind (fault_bind (fun _ => throws) (.step fun _ hw => clean_slept hw))
                    fun _ => ih
          | _ => exact throws

/-- `unlock` gives the lock file back when it returns. -/
lemma unlock_spec (f : Str) :
    Prog.Triple (on pid (Holds pid l₀ f)) (unlock f) (fun _ => on pid (Clean pid l₀))
      fun _ _ => True := by
  refine fault_bind (fun _ => throws) (sys_bind fun _ => .ite (fun _ => ?_) fun _ => throws)
  refine modifySys_spec fun s hs g hown => ?_
  have hne : g ≠ f := by
    rintro rfl
    simp [Owns, System.setLock] at hown
  exact hs.2 g hne (by simpa [Owns, System.setLock, hne] using hown)

/-! ### What the constructors return -/

lemma stmt_spec {α : Type} {st : Statement} {f : Str} {x : Prog Exn (World pid) α}
    {P : World pid → Prop} {Q : α → World pid → Prop} (h : Prog.Triple P x Q fun _ _ => True) :
    Prog.Triple P (stmt st f x) Q fun _ _ => True :=
  .rethrow h

lemma probe_spec (fuel : ℕ) (base key : Str) (ns : List ℕ) :
    Prog.Triple (on pid (Clean pid l₀)) (probe fuel base key ns)
      (fun o => on pid (Holds pid l₀ o.lockFile)) fun _ _ => True := by
  induction ns with
  | nil => exact throws
  | cons n ns ih =>
      refine .bind (stmt_spec (getLockfile_spec true _ fuel)) fun _ => ?_
      refine .bind (access_spec _) fun e => ?_
      cases e with
      | none =>
          refine .bind (readKey_spec _) fun k => ?_
          cases k with
          | none =>
              exact .bind (stmt_spec ((writeKey_calm _ _).returns _)) fun _ => .pure fun _ h => h
          | some k =>
              refine .ite (fun _ => .pure fun _ h => h) fun _ => ?_
              exact .bind (stmt_spec (unlock_spec _)) fun _ => ih
      | some e =>
          cases e with
          | noent =>
              refine .bind (stmt_spec ((createDirectories_calm _).returns _)) fun _ => ?_
              exact .bind (stmt_spec ((writeKey_calm _ _).returns _)) fun _ => .pure fun _ h => h
          | _ => exact throws

lemma ofBucket_spec (fuel : ℕ) (bucket : Str) (block : Bool) :
    Prog.Triple (on pid (Clean pid l₀)) (ofBucket fuel bucket block)
      (fun o => on pid (Holds pid l₀ o.lockFile)) fun _ _ => True := by
  refine .ite (fun _ => throws) fun _ => .bind (access_spec _) fun e => ?_
  cases e with
  | some e => exact throws
  | none =>
      refine .bind (accessKey_spec _) fun e => ?_
      cases e with
      | some e => exact throws
      | none =>
          refine .bind (stmt_spec (getLockfile_spec block _ fuel)) fun _ => ?_
          refine .bind (readKey_spec _) fun k => ?_
          cases k with
          | none => exact throws
          | some key => exact .pure fun _ h => h

lemma run_spec (sha1 : Str → Str) (fuel : ℕ) (c : Constructor) :
    Prog.Triple (on pid (Clean pid l₀)) (c.run sha1 fuel)
      (fun o => on pid (Holds pid l₀ o.lockFile)) fun _ _ => True := by
  cases c with
  | ofKey rootDir key =>
      exact .bind (stmt_spec ((createDirectories_calm _).returns _)) fun _ =>
        probe_spec fuel _ key _
  | ofBucket bucket block => exact ofBucket_spec fuel bucket block

end

/-- A constructor that returns holds the lock file of its bucket, and has taken no other one. -/
theorem owns_of_constructor {sha1 : Str → Str} {fuel : ℕ} {c : Constructor} {w w' : World pid}
    {o : Opened} (h : c.run sha1 fuel w = some (.ok o, w')) :
    Owns pid w'.sys.locks o.lockFile ∧
      ∀ f ≠ o.lockFile, Owns pid w'.sys.locks f → Owns pid w.sys.locks f :=
  (run_spec sha1 fuel c w w' (fun _ hown => hown)).1 o h

end BucketOpen

end Mycelium
