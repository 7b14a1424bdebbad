import Mycelium.Lib.Machine
import Mycelium.Common.BucketCalls
import Mycelium.Common.BucketOpen

/-!
# The member functions of a bucket on its files

The member functions of `big_hash_bucket`, one system call at a time, where every call can fail and
a `write` can take less than it is given.  `set` empties the value file before it writes, and
removes it when a `write` fails: the old value is lost, and what `get` returns next is nothing, or
the beginning of a value when the file could not be removed.  It is never anything else.
-/

namespace Mycelium

open Lib BigHash BucketLock

namespace BucketOpen

variable {pid : Pid} {ε : Type}

/-! ### The functions -/

/-- `big_hash_bucket`; `m_lock_file` is empty when the bucket is not locked. -/
structure Object where
  lockFile : Str
  key : Str
  bucketDir : Str
  block : Bool
  erased : Bool := false
deriving DecidableEq, Repr

/-- What the system is free to choose. -/
structure Choice where
  /-- How many bytes the next writes take besides one; those behind them take all they are given. -/
  sizes : List ℕ := []
  /-- The key file is found in the directory before the value file. -/
  keyFirst : Bool := true
deriving DecidableEq, Repr

/-- An exception of `boost::filesystem`, which is a `std::runtime_error`. -/
def filesystemError (function path : Str) (e : Errno) : Exn :=
  .runtimeError (lit "boost::filesystem::" ++ function ++ lit ": " ++ strerror e ++ lit ": \""
    ++ path ++ lit "\"")

namespace Object

/-- The path of the value file. -/
def valuef (b : Object) : Str := slash b.bucketDir (lit "__value__")

/-- `locked`. -/
def locked (b : Object) : Bool := !b.lockFile.isEmpty

/-- `lock`, as long as it sleeps less often than the number says. -/
def lock (fuel : ℕ) (b : Object) : Prog Exn (World pid) Unit :=
  if b.locked then getLockfile b.block b.lockFile fuel
  else throw emptyLockFile

/-- `unlock`. -/
def unlock (b : Object) : Prog Exn (World pid) Object :=
  if b.locked then do
    BucketOpen.unlock b.lockFile
    return { b with lockFile := [] }
  else return b

/-- `is_regular_file` of the value file. -/
def isRegularFile (b : Object) : Prog Exn (World pid) Bool := do
  match ← fault with
  | some .noent => return false
  | some e => throw (filesystemError (lit "status") b.valuef e)
  | none => return (((← sys).dirs b.bucketDir).bind (·.value)).isSome

/-- `file_size` of the value file, which is only used to reserve memory. -/
def fileSize (b : Object) : Prog Exn (World pid) Unit := do
  match ← fault with
  | some e => throw (filesystemError (lit "file_size") b.valuef e)
  | none => return

/-- The exception of `get` when the value file cannot be opened. -/
def keyError (b : Object) (e : Errno) : Exn :=
  .runtimeError (lit "Can't open value file: \"" ++ b.valuef ++ lit "\": " ++ strerror e)

/-- `get`.  A value is read in pieces of 8192 bytes, and once more at its end. -/
def get (b : Object) : Prog Exn (World pid) Str :=
  if b.erased then throw (.runtimeError (lit "get: bucket has been erased"))
  else do
    if ← b.isRegularFile then do
      b.fileSize
      match ← fault with
      | some .noent => return []
      | some e => throw (b.keyError e)
      | none =>
          match ((← sys).dirs b.bucketDir).bind (·.value) with
          | none => return []
          | some value =>
              match ← reads ((value.length + 8191) / 8192 + 1) with
              | some e => throw (errSys (lit "read") e)
              | none => return value
    else return []

/-- Changes the value file in a directory that is there. -/
def putValue (b : Object) (g : Option Str → Option Str) (s : System) : System :=
  s.setDir b.bucketDir ((s.dirs b.bucketDir).map fun dir => { dir with value := g dir.value })

/-- The loop of `set`, when no more bytes are left than the number says; the error of the `write`
that fails. -/
def writeValue (b : Object) : ℕ → List ℕ → Str → Prog ε (World pid) (Option Errno)
  | 0, _, _ => return none
  | n + 1, sizes, rest =>
      if rest.isEmpty then return none
      else do
        match ← fault with
        | some e => return some e
        | none => do
            let nwrite := min (sizes.headD 8191 + 1) 8192
            modifySys (b.putValue fun v => some (v.getD [] ++ rest.take nwrite))
            b.writeValue n sizes.tail (rest.drop nwrite)

/-- `remove` of the value file. -/
def removeValue (b : Object) : Prog Exn (World pid) Unit := do
  match ← fault with
  | some e => throw (filesystemError (lit "remove") b.valuef e)
  | none => modifySys (b.putValue fun _ => none)

/-- The end of `set`, from `open` on. -/
def overwrite (b : Object) (c : Choice) (value : Str) : Prog Exn (World pid) Unit := do
  match ← fault with
  | some _ => throw (.runtimeError (lit "set: open"))
  | none =>
      if ((← sys).dirs b.bucketDir).isSome then do
        modifySys (b.putValue fun _ => some [])
        match ← b.writeValue value.length c.sizes value with
        | none => return
        | some e => do
            b.removeValue
            throw (errSys (lit "write") e)
      else throw (.runtimeError (lit "set: open"))

/-- `set`. -/
def set (fuel : ℕ) (b : Object) (c : Choice) (value : Str) : Prog Exn (World pid) Unit :=
  if b.erased then throw (.runtimeError (lit "set: bucket has been erased"))
  else if b.locked then b.overwrite c value
  else do
    b.lock fuel
    b.overwrite c value

/-- The key file or the value file of a directory. -/
def fileOf (isKey : Bool) (dir : Bucket) : Option Str := if isKey then dir.key else dir.value

/-- The directory without the file. -/
def without (isKey : Bool) (dir : Bucket) : Bucket :=
  if isKey then { dir with key := none } else { dir with value := none }

/-- `remove_all` comes to the key file or the value file, if it is there. -/
def removeFile (b : Object) (isKey : Bool) : Prog Exn (World pid) Unit := do
  let dir := (← sys).dirs b.bucketDir
  if (dir.bind (fileOf isKey)).isSome then do
    match ← fault with
    | some e => throw (filesystemError (lit "remove_all") b.bucketDir e)
    | none => modifySys (·.setDir b.bucketDir (dir.map (without isKey)))
  else return

/-- `remove_all` of the bucket directory, in which there are no other files. -/
def removeAll (b : Object) (c : Choice) : Prog Exn (World pid) Unit := do
  match ← fault with
  | some e => throw (filesystemError (lit "remove_all") b.bucketDir e)
  | none =>
      if ((← sys).dirs b.bucketDir).isSome then do
        match ← fault with
        | some e => throw (filesystemError (lit "remove_all") b.bucketDir e)
        | none => do
            b.removeFile c.keyFirst
            b.removeFile !c.keyFirst
            match ← fault with
            | some e => throw (filesystemError (lit "remove_all") b.bucketDir e)
            | none => modifySys (·.setDir b.bucketDir none)
      else return

/-- The end of `erase`, from `remove_all` on. -/
def discard (b : Object) (c : Choice) : Prog Exn (World pid) Object := do
  b.removeAll c
  let b ← b.unlock
  return { b with erased := true }

/-- `erase`. -/
def erase (fuel : ℕ) (b : Object) (c : Choice) : Prog Exn (World pid) Object :=
  if b.locked then b.discard c
  else do
    b.lock fuel
    b.discard c

/-- One call of a member function. -/
def call (fuel : ℕ) (b : Object) (c : Choice) : Member → Prog Exn (World pid) (Answer × Object)
  | .lock => do
      b.lock fuel
      return (.done, b)
  | .unlock => do
      let b ← b.unlock
      return (.done, b)
  | .call (.set value) => do
      b.set fuel c value
      return (.done, b)
  | .call .get => do
      let value ← b.get
      return (.value value, b)
  | .call .erase => do
      let b ← b.erase fuel c
      return (.done, b)

/-- One call; the caller catches what it throws, and goes on with the bucket as it was. -/
def perform (fuel : ℕ) (b : Object) (c : Choice) (m : Member) (w : World pid) :
    Option (Answer × Object × World pid) :=
  (b.call fuel c m w).map fun r =>
    match r.1 with
    | .ok (a, b) => (a, b, r.2)
    | .error e => (.threw e, b, r.2)

end Object

/-- The calls of the member functions of one bucket. -/
def members (pid : Pid) (fuel : ℕ) : Machine (Object × World pid) (Member × Choice) Answer where
  exec s i := (s.1.perform fuel i.2 i.1 s.2).map fun r => (r.1, r.2.1, r.2.2)

/-! ### Calls that can fail -/

/-- No call says that there is no file when there is one. -/
def Genuine (w : World pid) : Prop := ∀ n, w.faults n ≠ some .noent

/-- A property of the system, where the errors to come are genuine. -/
def At (pid : Pid) (P : System → Prop) (w : World pid) : Prop := Genuine w ∧ P w.sys

section

variable {P R : System → Prop} {E : ε → World pid → Prop} {α : Type} {Q : α → World pid → Prop}

lemma fault_at {k : Option Errno → Prog ε (World pid) α}
    (hfails : ∀ e, e ≠ .noent → Prog.Triple (At pid P) (k (some e)) Q E)
    (hworks : Prog.Triple (At pid P) (k none) Q E) : Prog.Triple (At pid P) (fault >>= k) Q E := by
  refine .bind (R := fun e w => e ≠ some .noent ∧ At pid P w)
    (.step fun w hw => ⟨hw.1 0, fun n => hw.1 (n + 1), hw.2⟩) fun e => .of_and fun he => ?_
  cases e with
  | none => exact hworks
  | some e => exact hfails e fun h => he (congrArg some h)

/-- The system that is read is the one at hand. -/
lemma sys_at {k : System → Prog ε (World pid) α}
    (hk : ∀ s, P s → Prog.Triple (At pid (· = s)) (k s) Q E) :
    Prog.Triple (At pid P) (sys >>= k) Q E :=
  .bind (R := fun s w => P s ∧ At pid (· = s) w) (.step fun _ hw => ⟨hw.2, hw.1, rfl⟩)
    fun s => .of_and (hk s)

lemma modifySys_at {g : System → System} (hg : ∀ s, P s → R (g s)) :
    Prog.Triple (At pid P) (modifySys g) (fun _ => At pid R) E :=
  .step fun w hw => ⟨hw.1, hg w.sys hw.2⟩

lemma At.imp {w : World pid} (h : At pid P w) (hP : ∀ s, P s → R s) : At pid R w :=
  ⟨h.1, hP _ h.2⟩

end

namespace Object

/-- The value of a bucket, as its file has it. -/
def valueIn (b : Object) (s : System) : Str := ((s.dirs b.bucketDir).bind (·.value)).getD []

/-- The lock file of a bucket that is locked has the pid of the process. -/
def Owned (pid : Pid) (b : Object) (s : System) : Prop :=
  b.locked = true → Owns pid s.locks b.lockFile

/-- The bucket has its lock file and a value. -/
structure Has (pid : Pid) (b : Object) (A : Set Str) (s : System) : Prop where
  owned : b.Owned pid s
  value : b.valueIn s ∈ A

section

variable {b : Object} {A : Set Str} {P : System → Prop} {α : Type} {E : ε → World pid → Prop}

lemma reads_at (n : ℕ) : Prog.Triple (At pid P) (reads n) (fun _ => At pid P) E := by
  induction n with
  | zero => exact .pure fun _ h => h
  | succ n ih => exact fault_at (fun _ _ => .pure fun _ h => h) ih

lemma isRegularFile_at : Prog.Triple (At pid P) b.isRegularFile
    (fun r => At pid fun s => P s ∧ (r = false → (s.dirs b.bucketDir).bind (·.value) = none))
    fun _ => At pid P := by
  refine fault_at (fun e he => ?_) (sys_at fun s hs => .pure fun w hw => ⟨hw.1, hw.2 ▸ hs, ?_⟩)
  · cases e with
    | noent => exact absurd rfl he
    | _ => exact .throw fun _ h => h
  · intro hr
    obtain ⟨-, rfl⟩ := hw
    simpa using hr

/-- `get` returns the value, or throws; the files stay as they are. -/
lemma get_at : Prog.Triple (At pid (b.Has pid A)) b.get
    (fun v w => v ∈ A ∧ At pid (b.Has pid A) w) fun _ => At pid (b.Has pid A) := by
  refine .ite (fun _ => .throw fun _ h => h) fun _ => .bind isRegularFile_at fun r => ?_
  refine .ite (fun _ => ?_) fun hr => .pure fun w hw => ⟨?_, hw.imp fun _ h => h.1⟩
  · refine .bind (R := fun _ => At pid (b.Has pid A)) ?_ fun _ => ?_
    · exact fault_at (fun _ _ => .throw fun _ h => h.imp fun _ h => h.1)
        (.pure fun _ h => h.imp fun _ h => h.1)
    · refine fault_at (fun e he => ?_) (sys_at fun s hs => ?_)
      · cases e with
        | noent => exact absurd rfl he
        | _ => exact .throw fun _ h => h
      · have hvalue := hs.value
        rw [valueIn] at hvalue
        cases hv : (s.dirs b.bucketDir).bind (·.value) with
        | none =>
            rw [hv] at hvalue
            exact .pure fun w hw => ⟨hvalue, hw.1, hw.2 ▸ hs⟩
        | some value =>
            rw [hv] at hvalue
            refine .bind (reads_at _) fun e => ?_
            cases e with
            | none => exact .pure fun w hw => ⟨hvalue, hw.1, hw.2 ▸ hs⟩
            | some e => exact .throw fun w hw => ⟨hw.1, hw.2 ▸ hs⟩
  · have hnone := hw.2.2 (by simpa using hr)
    have hvalue := hw.2.1.value
    rwa [valueIn, hnone] at hvalue

lemma Has.mono {A' : Set Str} {s : System} (h : b.Has pid A s) (hA : A ⊆ A') : b.Has pid A' s :=
  ⟨h.owned, hA h.value⟩

/-- The pid that is written over itself. -/
lemma overwritten_self (pid : Pid) : overwritten pid (some pid) = pid := by
  simp [overwritten, Nat.mod_one]

lemma writePid_at (hb : b.locked = true) : Prog.Triple (At pid (b.Has pid A)) (writePid b.lockFile)
    (fun _ => At pid (b.Has pid A)) fun _ => At pid (b.Has pid A) := by
  have hkeeps : ∀ s, b.Has pid A s → b.Has pid A (s.setLock b.lockFile (some (some pid))) :=
    fun s hs => ⟨fun _ => Function.update_self .., hs.value⟩
  refine fault_at (fun _ _ => .throw fun _ h => h) (fault_at (fun _ _ => .throw fun _ h => h)
    (.bind (modifySys_at fun s hs => ?_) fun _ => fault_at (fun _ _ => .throw fun _ h => h)
      (modifySys_at hkeeps)))
  have hlock : s.locks b.lockFile = some (some pid) := hs.owned hb
  rw [hlock, Option.join_some, overwritten_self]
  exact hkeeps s hs

lemma openExcl_at (hb : b.locked = true) : Prog.Triple (At pid (b.Has pid A)) (openExcl b.lockFile)
    (fun e w => e ≠ none ∧ At pid (b.Has pid A) w) E := by
  refine fault_at (fun e _ => .pure fun _ h => ⟨by simp, h⟩) (sys_at fun s hs => ?_)
  have hlock : s.locks b.lockFile = some (some pid) := hs.owned hb
  rw [hlock, if_pos Option.isSome_some]
  exact .pure fun w hw => ⟨by simp, hw.1, hw.2 ▸ hs⟩

lemma readLock_at (hb : b.locked = true) : Prog.Triple (At pid (b.Has pid A)) (readLock b.lockFile)
    (fun r w => (∀ p, r = some p → p = pid) ∧ At pid (b.Has pid A) w)
    fun _ => At pid (b.Has pid A) := by
  refine fault_at (fun _ _ => .throw fun _ h => h) (sys_at fun s hs => ?_)
  have hlock : s.locks b.lockFile = some (some pid) := hs.owned hb
  rw [hlock]
  exact fault_at (fun _ _ => .pure fun w hw => ⟨by simp, hw.1, hw.2 ▸ hs⟩)
    (.pure fun w hw => ⟨fun p hp => (Option.some.inj hp).symm, hw.1, hw.2 ▸ hs⟩)

/-- The lock file is there already and has the pid of the process, which does not sleep. -/
lemma getLockfile_at (hb : b.locked = true) (fuel : ℕ) :
    Prog.Triple (At pid (b.Has pid A)) (getLockfile b.block b.lockFile fuel)
      (fun _ => At pid (b.Has pid A)) fun _ => At pid (b.Has pid A) := by
  cases fuel with
  | zero => exact .hang
  | succ fuel =>
      refine .bind (openExcl_at hb) fun e => .of_and fun he => ?_
      cases e with
      | none => exact absurd rfl he
      | some e =>
          cases e with
          | exist =>
              refine .bind (readLock_at hb) fun r => .of_and fun hr => ?_
              cases r with
              | none =>
                  -- `read` has failed, and the file is taken for one without a pid
                  exact writePid_at hb
              | some p => exact .ite (fun _ => .throw fun _ h => h) fun hp => absurd (hr p rfl) hp
          | _ => exact .throw fun _ h => h

lemma lock_at (fuel : ℕ) : Prog.Triple (At pid (b.Has pid A)) (b.lock fuel)
    (fun _ => At pid (b.Has pid A)) fun _ => At pid (b.Has pid A) :=
  .ite (fun hb => getLockfile_at hb fuel) fun _ => .throw fun _ h => h

lemma unlock_at : Prog.Triple (At pid (b.Has pid A)) b.unlock
    (fun b' => At pid (b'.Has pid A)) fun _ => At pid (b.Has pid A) := by
  refine .ite (fun _ => ?_) fun _ => .pure fun _ h => h
  refine .bind (R := fun _ => At pid ({ b with lockFile := [] }.Has pid A)) ?_ fun _ =>
    .pure fun _ h => h
  refine fault_at (fun _ _ => .throw fun _ h => h)
    (sys_at fun s hs => .ite (fun _ => ?_) fun _ => ?_)
  · exact modifySys_at fun t ht => ⟨fun h => absurd h (by simp [locked]), ht ▸ hs.value⟩
  · exact .throw fun w hw => ⟨hw.1, hw.2 ▸ hs⟩

end

/-! ### What is left of a value -/

/-- What the value may be when `set` has thrown: what it was, when the value file was not opened;
nothing, when a `write` has failed; the beginning of the new value, when the file could not be
removed after that. -/
inductive Torn (A : Set Str) (v : Str) : Exn → Str → Prop
  | kept (e : Exn) (u : Str) : e ∈ [.runtimeError (lit "set: bucket has been erased"),
      emptyLockFile, .runtimeError (lit "set: open")] → u ∈ A → Torn A v e u
  | removed (e : Errno) : Torn A v (errSys (lit "write") e) []
  | torn (path u : Str) (e : Errno) : u <+: v → Torn A v (filesystemError (lit "remove") path e) u

/-- What the value may be after a call, by its answer. -/
def possible (A : Set Str) : Member → Answer → Set Str
  | .call (.set v), .done => {v}
  | .call (.set v), .threw e => {u | Torn A v e u}
  | .call .erase, .done => {[]}
  | .call .erase, .threw _ => insert [] A
  | _, _ => A

section

variable {b : Object} {A : Set Str} {v : Str}

lemma dirs_setDir_self (s : System) (path : Str) (dir : Option Bucket) :
    (s.setDir path dir).dirs path = dir :=
  Function.update_self ..

lemma bind_value_putValue (g : Option Str → Option Str) (s : System) :
    ((b.putValue g s).dirs b.bucketDir).bind (·.value)
      = (s.dirs b.bucketDir).bind fun dir => g dir.value := by
  rw [putValue, dirs_setDir_self]
  cases s.dirs b.bucketDir <;> rfl

/-- The file has the beginning of the value that is written so far. -/
def Written (pid : Pid) (b : Object) (x : Str) (s : System) : Prop :=
  b.Owned pid s ∧ (s.dirs b.bucketDir).bind (·.value) = some x

lemma Written.has {x : Str} {s : System} (h : b.Written pid x s) (hx : x ∈ A) : b.Has pid A s :=
  ⟨h.1, by rwa [valueIn, h.2]⟩

lemma Written.append {x : Str} {s : System} (h : b.Written pid x s) (y : Str) :
    b.Written pid (x ++ y) (b.putValue (fun v => some (v.getD [] ++ y)) s) := by
  refine ⟨h.1, ?_⟩
  obtain ⟨dir, hdir, hx⟩ := Option.bind_eq_some_iff.1 h.2
  rw [bind_value_putValue, hdir, Option.bind_some, hx]
  rfl

/-- The loop of `set` writes the rest of the value, or a part of it. -/
lemma writeValue_at {E : ε → World pid → Prop} {n : ℕ} {sizes : List ℕ} {x rest : Str}
    (hn : rest.length ≤ n) (hv : x ++ rest = v) :
    Prog.Triple (At pid (b.Written pid x)) (b.writeValue n sizes rest)
      (fun r => At pid fun s => ∃ y, b.Written pid y s ∧ y <+: v ∧ (r = none → y = v)) E := by
  induction n generalizing sizes x rest with
  | zero =>
      obtain rfl : rest = [] := List.length_eq_zero_iff.1 (by omega)
      obtain rfl : x = v := by simpa using hv
      exact .pure fun w hw => ⟨hw.1, x, hw.2, List.prefix_rfl, fun _ => rfl⟩
  | succ n ih =>
      refine .ite (fun hrest => ?_) fun hrest => fault_at (fun e _ => ?_) ?_
      · obtain rfl : x = v := by simpa [List.isEmpty_iff.1 hrest] using hv
        exact .pure fun w hw => ⟨hw.1, x, hw.2, List.prefix_rfl, fun _ => rfl⟩
      · exact .pure fun w hw => ⟨hw.1, x, hw.2, ⟨rest, hv⟩, by simp⟩
      · -- a `write` that does not fail takes at least one byte
        refine .bind (modifySys_at fun s hs => hs.append _) fun _ => ih ?_ ?_
        · have hpos : 0 < rest.length := List.length_pos_iff.2 (by simpa using hrest)
          rw [List.length_drop]
          omega
        · rw [List.append_assoc, List.take_append_drop, hv]

lemma overwrite_at (c : Choice) : Prog.Triple (At pid (b.Has pid A)) (b.overwrite c v)
    (fun _ => At pid (b.Has pid {v})) fun e => At pid (b.Has pid {u | Torn A v e u}) := by
  have hopen : ∀ w : World pid, At pid (b.Has pid A) w →
      At pid (b.Has pid {u | Torn A v (.runtimeError (lit "set: open")) u}) w :=
    fun w hw => hw.imp fun s hs => hs.mono fun u hu => .kept _ u (by simp) hu
  refine fault_at (fun _ _ => .throw hopen) (sys_at fun s hs => .ite (fun hdir => ?_) fun _ => ?_)
  · refine .bind (modifySys_at (R := b.Written pid []) fun t ht => ⟨ht ▸ hs.owned, ?_⟩) fun _ => ?_
    · subst ht
      obtain ⟨dir, hdir⟩ := Option.isSome_iff_exists.1 hdir
      rw [bind_value_putValue, hdir]
      rfl
    · refine .bind (writeValue_at le_rfl (List.nil_append v)) fun r => ?_
      cases r with
      | none =>
          refine .pure fun w hw => ⟨hw.1, ?_⟩
          obtain ⟨y, hy, -, hyv⟩ := hw.2
          exact hy.has (hyv rfl)
      | some e =>
          refine .bind (R := fun _ => At pid (b.Has pid {[]})) ?_ fun _ => .throw fun w hw => ?_
          · refine fault_at (fun e' _ => .throw fun w hw => ⟨hw.1, ?_⟩) (modifySys_at ?_)
            · obtain ⟨y, hy, hbegin, -⟩ := hw.2
              exact hy.has (.torn _ y e' hbegin)
            · rintro s ⟨y, hy, -⟩
              refine ⟨hy.1, ?_⟩
              rw [valueIn, bind_value_putValue]
              cases s.dirs b.bucketDir <;> rfl
          · refine hw.imp fun s hs => hs.mono ?_
            rintro u rfl
            exact .removed e
  · exact .throw fun w hw => hopen w ⟨hw.1, hw.2 ▸ hs⟩

/-- `set` leaves the value that it is given, or throws. -/
lemma set_at (fuel : ℕ) (c : Choice) : Prog.Triple (At pid (b.Has pid A)) (b.set fuel c v)
    (fun _ => At pid (b.Has pid {v})) fun e => At pid (b.Has pid {u | Torn A v e u}) := by
  refine .ite (fun _ => .throw fun w hw => ?_) fun _ => .ite (fun _ => overwrite_at c) fun hb => ?_
  · exact hw.imp fun s hs => hs.mono fun u hu => .kept _ u (by simp) hu
  · refine .bind (R := fun _ => At pid (b.Has pid A)) ?_ fun _ => overwrite_at c
    rw [lock, if_neg hb]
    exact .throw fun w hw => hw.imp fun s hs => hs.mono fun u hu => .kept _ u (by simp) hu

lemma removeFile_at (hA : [] ∈ A) (isKey : Bool) :
    Prog.Triple (At pid (b.Has pid A)) (b.removeFile isKey) (fun _ => At pid (b.Has pid A))
      fun _ => At pid (b.Has pid A) := by
  refine sys_at fun s hs => .ite (fun _ => ?_) fun _ => .pure fun w hw => ⟨hw.1, hw.2 ▸ hs⟩
  refine fault_at (fun _ _ => .throw fun w hw => ⟨hw.1, hw.2 ▸ hs⟩) (modifySys_at fun t ht => ?_)
  subst ht
  refine ⟨hs.owned, ?_⟩
  have hvalue := hs.value
  rw [valueIn] at hvalue ⊢
  rw [dirs_setDir_self]
  cases hdir : t.dirs b.bucketDir with
  | none => exact hA
  | some dir =>
      rw [hdir] at hvalue
      cases isKey with
      | true => exact hvalue
      | false => exact hA

/-- `remove_all` removes the value, or throws when it may have removed it. -/
lemma removeAll_at (c : Choice) : Prog.Triple (At pid (b.Has pid A)) (b.removeAll c)
    (fun _ => At pid (b.Has pid {[]})) fun _ => At pid (b.Has pid (insert [] A)) := by
  have hmore : ∀ {w : World pid}, At pid (b.Has pid A) w → At pid (b.Has pid (insert [] A)) w :=
    fun hw => hw.imp fun s hs => hs.mono (Set.subset_insert [] A)
  refine fault_at (fun _ _ => .throw fun _ h => hmore h) (sys_at fun s hs => .ite (fun _ => ?_) ?_)
  · refine fault_at (fun _ _ => .throw fun w hw => hmore ⟨hw.1, hw.2 ▸ hs⟩) ?_
    refine .conseq (P := At pid (b.Has pid (insert [] A))) ?_ (fun w hw => hmore ⟨hw.1, hw.2 ▸ hs⟩)
      (fun _ _ h => h) fun _ _ h => h
    refine .bind (removeFile_at (Set.mem_insert [] A) _) fun _ => ?_
    refine .bind (removeFile_at (Set.mem_insert [] A) _) fun _ => ?_
    refine fault_at (fun _ _ => .throw fun _ h => h) (modifySys_at fun t ht => ⟨ht.owned, ?_⟩)
    rw [valueIn, dirs_setDir_self]
    rfl
  · intro hdir
    refine .pure fun w hw => ⟨hw.1, hw.2 ▸ hs.owned, ?_⟩
    rw [hw.2, valueIn, Option.not_isSome_iff_eq_none.1 hdir]
    rfl

lemma discard_at (c : Choice) : Prog.Triple (At pid (b.Has pid A)) (b.discard c)
    (fun b' => At pid (b'.Has pid {[]})) fun _ => At pid (b.Has pid (insert [] A)) := by
  refine .bind (removeAll_at c) fun _ => .bind (R := fun b' => At pid (b'.Has pid {[]})) ?_
    fun b' => .pure fun w hw => ⟨hw.1, hw.2.owned, hw.2.value⟩
  refine unlock_at.conseq (fun _ h => h) (fun _ _ h => h) fun _ w h => h.imp fun s hs => hs.mono ?_
  exact Set.singleton_subset_iff.2 (Set.mem_insert [] A)

lemma erase_at (fuel : ℕ) (c : Choice) : Prog.Triple (At pid (b.Has pid A)) (b.erase fuel c)
    (fun b' => At pid (b'.Has pid {[]})) fun _ => At pid (b.Has pid (insert [] A)) := by
  refine .ite (fun _ => discard_at c) fun _ => .bind (R := fun _ => At pid (b.Has pid A)) ?_
    fun _ => discard_at c
  exact (lock_at fuel).conseq (fun _ h => h) (fun _ _ h => h) fun _ w h => h.imp fun s hs =>
    hs.mono (Set.subset_insert [] A)

/-- A call leaves what its answer says that it may leave. -/
lemma call_at (fuel : ℕ) (c : Choice) (m : Member) : Prog.Triple (At pid (b.Has pid A))
    (b.call fuel c m) (fun r => At pid (r.2.Has pid (possible A m r.1)))
      fun e => At pid (b.Has pid (possible A m (.threw e))) := by
  cases m with
  | lock => exact .bind (lock_at fuel) fun _ => .pure fun _ h => h
  | unlock => exact .bind unlock_at fun _ => .pure fun _ h => h
  | call op =>
      cases op with
      | set v => exact .bind (set_at fuel c) fun _ => .pure fun _ h => h
      | get => exact .bind get_at fun v => .pure fun _ h => h.2
      | erase => exact .bind (erase_at fuel c) fun _ => .pure fun _ h => h

/-- A value that is returned is the one that is there. -/
lemma call_get_at (fuel : ℕ) (c : Choice) : Prog.Triple (At pid (b.Has pid A))
    (b.call fuel c (.call .get)) (fun r _ => ∀ v, r.1 = .value v → v ∈ A) fun _ _ => True := by
  refine .bind (get_at.conseq (fun _ h => h) (fun _ _ h => h) fun _ _ _ => trivial) fun v => ?_
  refine .pure fun w hw u hu => ?_
  obtain rfl : v = u := Answer.value.inj hu
  exact hw.1

lemma perform_at {fuel : ℕ} {c : Choice} {m : Member} {a : Answer} {b' : Object} {w w' : World pid}
    (hw : At pid (b.Has pid A) w) (h : b.perform fuel c m w = some (a, b', w')) :
    At pid (b'.Has pid (possible A m a)) w' := by
  obtain ⟨⟨r, w₁⟩, hr, heq⟩ := Option.map_eq_some_iff.1 h
  have hcall := call_at fuel c m w w₁ hw
  cases r with
  | ok r =>
      obtain ⟨rfl, rfl, rfl⟩ : r.1 = a ∧ r.2 = b' ∧ w₁ = w' := by simpa using heq
      exact hcall.1 r hr
  | error e =>
      obtain ⟨rfl, rfl, rfl⟩ : .threw e = a ∧ b = b' ∧ w₁ = w' := by simpa using heq
      exact hcall.2 e hr

end

end Object

/-- The object that a constructor makes. -/
def Opened.object (o : Opened) (block : Bool) : Object where
  lockFile := o.lockFile
  key := o.key
  bucketDir := o.bucketDir
  block := block

/-- A bucket is opened by one of the constructors, and its member functions are called in any order,
while any system call may fail.  A `get` that returns a value returns what was set last, unless a
`set` or an `erase` has thrown since; it then returns what was there before, or nothing, or, when
`set` could not remove the file, the beginning of what was to be set. -/
theorem get_mem_possible {sha1 : Str → Str} {fuel : ℕ} {k : Constructor} {block : Bool} {o : Opened}
    {w₀ w w' w'' : World pid} {b b' : Object} {l : List ((Member × Choice) × Answer)} {c : Choice}
    {v : Str} (hopen : k.run sha1 fuel w₀ = some (.ok o, w)) (hw : Genuine w)
    (hrun : Machine.Run (members pid fuel) Machine.Free (o.object block, w) l (b, w'))
    (hget : b.perform fuel c (.call .get) w' = some (.value v, b', w'')) :
    v ∈ l.foldl (fun A x => Object.possible A x.1.1 x.2) {(o.object block).valueIn w.sys} := by
  have howns : Holds pid w₀.sys.locks o.lockFile w.sys.locks :=
    (run_spec sha1 fuel k w₀ w fun _ hown => hown).1 o hopen
  have hstart : At pid ((o.object block).Has pid {(o.object block).valueIn w.sys}) w :=
    ⟨hw, fun _ => howns.1, rfl⟩
  have hend := hrun.refinement (R := fun s A => At pid (s.1.Has pid A) s.2)
    (fun A x => Object.possible A x.1.1 x.2)
    (by
      intro s i a s' A hs _ hexec
      obtain ⟨r, hperform, heq⟩ := Option.map_eq_some_iff.1 hexec
      obtain ⟨rfl, rfl⟩ := Prod.mk.inj heq
      exact Object.perform_at hs hperform)
    hstart
  obtain ⟨⟨r, w₁⟩, hr, heq⟩ := Option.map_eq_some_iff.1 hget
  cases r with
  | error e => exact absurd heq (by simp)
  | ok r =>
      have hvalue : r.1 = .value v := congrArg Prod.fst heq
      exact (Object.call_get_at fuel c w' w₁ hend).1 r hr v hvalue

/-- The first `write` takes one byte; the next one fails, and so does the `remove` behind it. -/
theorem get_mem_possible_torn : ∃ (w₀ w w' w'' : World 7) (o : Opened) (b b' : Object) (l : _),
    (Constructor.ofBucket (lit "b/") true).run id 1 w₀ = some (.ok o, w) ∧ Genuine w ∧
      Machine.Run (members 7 1) Machine.Free (o.object true, w) l (b, w') ∧
      b.perform 1 {} (.call .get) w' = some (.value (lit "a"), b', w'') ∧
      lit "a" ∈ l.foldl (fun A x => Object.possible A x.1.1 x.2)
        {(o.object true).valueIn w.sys} := by
  obtain ⟨w, hopen, hw, hany⟩ : ∃ w, (Constructor.ofBucket (lit "b/") true).run id 1
      (World.oneBucket fun n => if n = 11 ∨ n = 12 then
        some (.other (lit "No space left on device")) else none)
          = some (.ok ⟨lit "b.lock", lit "k", lit "b"⟩, w) ∧ Genuine w ∧
      ((members 7 1).runs (Opened.object ⟨lit "b.lock", lit "k", lit "b"⟩ true, w)
        [(.call (.set (lit "ab")), { sizes := [0] })]).any (fun x =>
          (x.2.1.perform 1 {} (.call .get) x.2.2).any (·.1 = .value (lit "a"))) = true := by
    refine ⟨_, rfl, fun n => ?_, by decide⟩
    simp only [World.oneBucket, World.after, World.withSys]
    split <;> simp
  obtain ⟨l, s, hrun, hget⟩ :=
    Machine.exists_run_of_any (G := Machine.Free) _ (fun _ _ _ => trivial) hany
  obtain ⟨⟨a, b', w''⟩, hperform, ha⟩ := (Option.any_eq_true _ _).1 hget
  obtain rfl : a = .value (lit "a") := of_decide_eq_true ha
  exact ⟨_, w, s.2, w'', _, s.1, b', l, hopen, hw, hrun, hperform,
    get_mem_possible hopen hw hrun hperform⟩

end BucketOpen

end Mycelium
