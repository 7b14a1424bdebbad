import Mathlib.Data.List.Dedup
import Mycelium.Lib.Machine
import Mycelium.Lib.OrderedMap
import Mycelium.Common.Bytes

/-!
# The hash on disk

`big_hash_bucket`, used by one process.  The buckets of a hash value are numbered directories.  The
constructor takes the first that holds its key or is not there, and `erase` removes the directory.

As long as a bucket is erased only when no bucket of its hash is behind it, the directories of a
hash value are its live keys in the order in which they were opened, and the hash is a map.  An
erased bucket in front of another one hides the key of the latter.
-/

namespace Mycelium

open Lib

namespace BigHash

/-! ### The disk -/

/-- `MAXBUCKETS`. -/
def maxBuckets : ℕ := 3

/-- A bucket directory, with the contents of `__key__` and `__value__`. -/
structure Bucket where
  key : Option Str := none
  value : Option Str := none
deriving DecidableEq, Repr

/-- The path of a bucket directory below the root: the hash value of its key, and its number. -/
abbrev Dir (H : Type) := H × ℕ

/-- The bucket directories, and the lock files beside them.  All lock files are of this process. -/
structure Disk (H : Type) where
  bucket : Dir H → Option Bucket
  lockFile : Dir H → Bool

/-- Code that works on the disk; what it has done stays done when it throws. -/
abbrev DiskM (H : Type) := ExceptT Exn (StateM (Disk H))

/-- The empty root directory. -/
def Disk.new (H : Type) : Disk H where
  bucket _ := none
  lockFile _ := false

/-- Puts a bucket at a path, or nothing. -/
def Disk.setBucket {H : Type} [DecidableEq H] (d : Disk H) (p : Dir H) (b : Option Bucket) :
    Disk H :=
  { d with bucket := Function.update d.bucket p b }

/-- Creates or unlinks a lock file. -/
def Disk.setLock {H : Type} [DecidableEq H] (d : Disk H) (p : Dir H) (b : Bool) : Disk H :=
  { d with lockFile := Function.update d.lockFile p b }

end BigHash

open BigHash

/-! ### The code -/

/-- `big_hash_bucket`; the lock file is `none` when `m_lock_file` is empty. -/
structure BigHashBucket (H : Type) where
  lockFile : Option (Dir H)
  key : Str
  bucketDir : Dir H
  erased : Bool := false
deriving DecidableEq

namespace BigHashBucket

variable {H : Type} [DecidableEq H]

/-- `get_lockfile`: a lock file that exists was written by this very process. -/
def getLockfile (p : Dir H) : DiskM H Unit := do
  if (← getThe (Disk H)).lockFile p then
    throw (.runtimeError (lit "prevent deadlock"))
  else
    modify (·.setLock p true)

/-- `lock`. -/
def lock (b : BigHashBucket H) : DiskM H Unit :=
  match b.lockFile with
  | some p => getLockfile p
  | none => throw (.runtimeError (lit "Empty m_lock_file"))

/-- `unlock`. -/
def unlock (b : BigHashBucket H) : DiskM H (BigHashBucket H) := do
  match b.lockFile with
  | some p =>
      if (← getThe (Disk H)).lockFile p then
        modify (·.setLock p false)
        return { b with lockFile := none }
      else
        throw (.runtimeError (lit "unlink error: No such file or directory\n"))
  | none => return b

/-- `write_key`. -/
def writeKey (b : BigHashBucket H) : DiskM H Unit := do
  match (← getThe (Disk H)).bucket b.bucketDir with
  | some dir => modify (·.setBucket b.bucketDir (some { dir with key := some b.key }))
  | none => throw (.runtimeError (lit "open error: No such file or directory\n"))

/-- The loop of the constructor over the numbers of the buckets. -/
def probe (h : H) (key : Str) : List ℕ → DiskM H (BigHashBucket H)
  | [] => throw (.runtimeError (lit "out of buckets"))
  | n :: ns => do
      let b : BigHashBucket H := { lockFile := some (h, n), key := key, bucketDir := (h, n) }
      b.lock
      match (← getThe (Disk H)).bucket (h, n) with
      | some dir =>
          -- `read_key`
          match dir.key with
          | some k =>
              if k = key then return b
              else do
                let _ ← b.unlock
                probe h key ns
          | none => do
              b.writeKey
              return b
      | none => do
          modify (·.setBucket (h, n) (some {}))
          b.writeKey
          return b

/-- The constructor of a root directory and a key. -/
def construct (sha1 : Str → H) (key : Str) : DiskM H (BigHashBucket H) :=
  probe (sha1 key) key (List.range' 0 maxBuckets)

/-- `get`. -/
def get (b : BigHashBucket H) : DiskM H Str := do
  if b.erased then
    throw (.runtimeError (lit "get: bucket has been erased"))
  else
    return (((← getThe (Disk H)).bucket b.bucketDir).bind (·.value)).getD []

/-- `set`. -/
def set (b : BigHashBucket H) (value : Str) : DiskM H Unit := do
  if b.erased then
    throw (.runtimeError (lit "set: bucket has been erased"))
  if b.lockFile.isNone then
    b.lock
  match (← getThe (Disk H)).bucket b.bucketDir with
  | some dir => modify (·.setBucket b.bucketDir (some { dir with value := some value }))
  | none => throw (.runtimeError (lit "set: open"))

/-- `erase`. -/
def erase (b : BigHashBucket H) : DiskM H (BigHashBucket H) := do
  if b.lockFile.isNone then
    b.lock
  modify (·.setBucket b.bucketDir none)
  let b ← b.unlock
  return { b with erased := true }

end BigHashBucket

namespace BigHash

/-- The calls of a session. -/
inductive Op where
  | set (value : Str)
  | get
  | erase
deriving DecidableEq, Repr

/-- What a call comes back with. -/
inductive Answer where
  | done
  | value (v : Str)
  | threw (e : Exn)
deriving DecidableEq, Repr

variable {H : Type} [DecidableEq H]

/-- One call on the bucket; the caller catches what it throws. -/
def call (b : BigHashBucket H) (op : Op) (d : Disk H) : Answer × BigHashBucket H × Disk H :=
  match op with
  | .set value =>
      match b.set value d with
      | (.ok _, d) => (.done, b, d)
      | (.error e, d) => (.threw e, b, d)
  | .get =>
      match b.get d with
      | (.ok v, d) => (.value v, b, d)
      | (.error e, d) => (.threw e, b, d)
  | .erase =>
      match b.erase d with
      | (.ok b, d) => (.done, b, d)
      | (.error e, d) => (.threw e, b, d)

/-- The calls of a session, one after the other. -/
def calls (b : BigHashBucket H) (d : Disk H) :
    List Op → List Answer × BigHashBucket H × Disk H
  | [] => ([], b, d)
  | op :: ops =>
      let (a, b, d) := call b op d
      let (as, b, d) := calls b d ops
      (a :: as, b, d)

/-- A session: the constructor, the calls, the destructor. -/
def session (sha1 : Str → H) (key : Str) (ops : List Op) (d : Disk H) :
    Except Exn (List Answer) × Disk H :=
  match BigHashBucket.construct sha1 key d with
  | (.error e, d) => (.error e, d)
  | (.ok b, d) =>
      let (as, b, d) := calls b d ops
      (.ok as, (b.unlock d).2)

/-! ### What the map does -/

/-- One call on the value of a live key. -/
def specCall (v : Option Str) : Op → Answer × Option Str
  | .set value => (.done, some value)
  | .get => (.value (v.getD []), v)
  | .erase => (.done, none)

/-- The calls of a session on the value of its key. -/
def specCalls (v : Option Str) : List Op → List Answer × Option Str
  | [] => ([], v)
  | op :: ops =>
      let (a, v) := specCall v op
      let (as, v) := specCalls v ops
      (a :: as, v)

/-- The value of a key after the sessions so far: what was set last since it was last erased, empty
when nothing was; `none` when the key has not been opened since. -/
def valueAfter (history : List (Str × List Op)) (key : Str) : Option Str :=
  history.foldl (fun v s => if s.1 = key then (specCalls (some (v.getD [])) s.2).2 else v) none

/-- The live keys of a hash value. -/
def liveKeys (sha1 : Str → H) (history : List (Str × List Op)) (h : H) : List Str :=
  (history.map Prod.fst).dedup.filter fun k => sha1 k = h ∧ (valueAfter history k).isSome

/-- The disk, and the sessions so far. -/
structure World (H : Type) where
  disk : Disk H
  history : List (Str × List Op) := []

/-- The empty root directory before the first session. -/
def World.new (H : Type) : World H where
  disk := Disk.new H

/-- The hash, session after session. -/
def machine (sha1 : Str → H) :
    Machine (World H) (Str × List Op) (Except Exn (List Answer)) where
  exec w s :=
    let (as, d) := session sha1 s.1 s.2 w.disk
    some (as, { disk := d, history := w.history ++ [s] })

/-- With the key of the session opened, at most `MAXBUCKETS` live keys share its hash value. -/
def Room (sha1 : Str → H) (w : World H) (s : Str × List Op) : Prop :=
  (liveKeys sha1 (w.history ++ [(s.1, [])]) (sha1 s.1)).length ≤ maxBuckets

/-- No bucket is behind the bucket of the key. -/
def Newest (sha1 : Str → H) (d : Disk H) (key : Str) : Prop :=
  ∀ i < maxBuckets, ∀ j < maxBuckets, i < j →
    (d.bucket (sha1 key, i)).bind (·.key) = some key → d.bucket (sha1 key, j) = none

/-- There is room for the key; the session ends with its erase, if it has one, and then no bucket
is behind the bucket of the key. -/
structure Orderly (sha1 : Str → H) (w : World H) (s : Str × List Op) : Prop where
  room : Room sha1 w s
  erase_last : ∀ op ∈ s.2.dropLast, op ≠ .erase
  newest : .erase ∈ s.2 → Newest sha1 w.disk s.1

/-! ### What the code does -/

@[simp] lemma bucket_setBucket (d : Disk H) (p : Dir H) (b : Option Bucket) :
    (d.setBucket p b).bucket = Function.update d.bucket p b := rfl

@[simp] lemma lockFile_setBucket (d : Disk H) (p : Dir H) (b : Option Bucket) :
    (d.setBucket p b).lockFile = d.lockFile := rfl

@[simp] lemma bucket_setLock (d : Disk H) (p : Dir H) (b : Bool) :
    (d.setLock p b).bucket = d.bucket := rfl

@[simp] lemma lockFile_setLock (d : Disk H) (p : Dir H) (b : Bool) :
    (d.setLock p b).lockFile = Function.update d.lockFile p b := rfl

lemma setLock_setLock {d : Disk H} {p : Dir H} (hp : d.lockFile p = false) :
    (d.setLock p true).setLock p false = d := by
  obtain ⟨bucket, lockFile⟩ := d
  have hp : lockFile p = false := hp
  simp only [Disk.setLock, Function.update_idem, Disk.mk.injEq, true_and]
  rw [← hp, Function.update_eq_self]

omit [DecidableEq H] in
lemma bind_ok {α β : Type} {x : DiskM H α} {f : α → DiskM H β} {a : α} {d d' : Disk H}
    (h : x d = (.ok a, d')) : (x >>= f) d = f a d' := by
  change (ExceptT.bindCont f (x d).1) (x d).2 = f a d'
  rw [h]
  rfl

omit [DecidableEq H] in
lemma get_bind {β : Type} (f : Disk H → DiskM H β) (d : Disk H) :
    (getThe (Disk H) >>= f) d = f d d := rfl

omit [DecidableEq H] in
lemma modify_bind {β : Type} (g : Disk H → Disk H) (f : PUnit → DiskM H β) (d : Disk H) :
    (modify g >>= f) d = f () (g d) := rfl

lemma lock_ok {b : BigHashBucket H} {p : Dir H} {d : Disk H} (hb : b.lockFile = some p)
    (hp : d.lockFile p = false) : b.lock d = (.ok (), d.setLock p true) := by
  simp only [BigHashBucket.lock, hb, BigHashBucket.getLockfile]
  rw [get_bind, if_neg (by simp [hp])]
  rfl

lemma unlock_ok {b : BigHashBucket H} {p : Dir H} {d : Disk H} (hb : b.lockFile = some p)
    (hp : d.lockFile p = true) :
    b.unlock d = (.ok { b with lockFile := none }, d.setLock p false) := by
  simp only [BigHashBucket.unlock, hb]
  rw [get_bind, if_pos hp]
  rfl

lemma unlock_none {b : BigHashBucket H} (hb : b.lockFile = none) (d : Disk H) :
    b.unlock d = (.ok b, d) := by
  simp only [BigHashBucket.unlock, hb]
  rfl

lemma writeKey_ok {b : BigHashBucket H} {d : Disk H} (dir : Bucket)
    (h : d.bucket b.bucketDir = some dir) :
    b.writeKey d = (.ok (), d.setBucket b.bucketDir (some { dir with key := some b.key })) := by
  rw [BigHashBucket.writeKey, get_bind, h]
  rfl

lemma call_get_ok {b : BigHashBucket H} {d : Disk H} {dir : Bucket} (he : b.erased = false)
    (h : d.bucket b.bucketDir = some dir) :
    call b .get d = (.value (dir.value.getD []), b, d) := by
  have hget : b.get d = (.ok (dir.value.getD []), d) := by
    simp only [BigHashBucket.get, he]
    rw [if_neg (by simp), get_bind, h]
    rfl
  simp only [call, hget]

/-- The bucket object that the constructor leaves. -/
def bucketAt (p : Dir H) (key : Str) : BigHashBucket H where
  lockFile := some p
  key := key
  bucketDir := p

/-- What the files of a bucket say: its key, and its value. -/
def Bucket.entry (b : Bucket) : Option Str × Str := (b.key, b.value.getD [])

/-- The same of an entry of the map. -/
def entryOf (e : Str × Str) : Option Str × Str := (some e.1, e.2)

/-- The disk after the constructor: the lock file, and a bucket if there was none. -/
def Disk.opened (d : Disk H) (p : Dir H) (key : Str) : Disk H :=
  match d.bucket p with
  | some _ => d.setLock p true
  | none => (d.setBucket p (some { key := some key })).setLock p true

/-- The constructor finds the first bucket of the key, or the end of the row. -/
lemma probe_ok (key : Str) {h : H} {row : List (Str × Str)} {n k : ℕ} {d : Disk H}
    (hrow : ∀ i ≤ row.findIdx (·.1 = key),
      (d.bucket (h, n + i)).map Bucket.entry = row[i]?.map entryOf)
    (hlock : ∀ p, d.lockFile p = false) (hroom : row.findIdx (·.1 = key) < k) :
    BigHashBucket.probe h key (List.range' n k) d =
      (.ok (bucketAt (h, n + row.findIdx (·.1 = key)) key),
        d.opened (h, n + row.findIdx (·.1 = key)) key) := by
  induction k generalizing n row with
  | zero => exact absurd hroom (by omega)
  | succ k ih =>
      rw [List.range'_succ, BigHashBucket.probe, bind_ok (lock_ok rfl (hlock (h, n))), get_bind,
        bucket_setLock]
      cases row with
      | nil =>
          have hb : d.bucket (h, n) = none := by simpa using hrow 0 (Nat.zero_le _)
          simp only [hb, List.findIdx_nil, Nat.add_zero]
          rw [modify_bind, bind_ok (writeKey_ok {} (by simp)), Disk.opened, hb]
          simp only [Disk.setBucket, Disk.setLock, Function.update_idem]
          rfl
      | cons e row =>
          have h0 : (d.bucket (h, n)).map Bucket.entry = some (entryOf e) := by
            simpa using hrow 0 (Nat.zero_le _)
          obtain ⟨dir, hb, he⟩ := Option.map_eq_some_iff.1 h0
          have hkey : dir.key = some e.1 := (Prod.mk.inj he).1
          simp only [hb, hkey]
          by_cases hk : e.1 = key
          · simp [hk, List.findIdx_cons, Disk.opened, hb]
            rfl
          · have hidx : (e :: row).findIdx (·.1 = key) = row.findIdx (·.1 = key) + 1 := by
              simp [List.findIdx_cons, hk]
            have hnext : ∀ i ≤ row.findIdx (·.1 = key),
                (d.bucket (h, n + 1 + i)).map Bucket.entry = row[i]?.map entryOf := fun i hi => by
              simpa [Nat.add_assoc, Nat.add_comm 1] using hrow (i + 1) (by omega)
            rw [hidx] at hroom ⊢
            rw [if_neg hk, bind_ok (unlock_ok rfl (by simp)), setLock_setLock (hlock _),
              ih hnext (by omega), Nat.add_assoc, Nat.add_comm 1]

/-! ### The buckets and the map -/

/-- The buckets of every hash value are the entries of its keys, oldest first. -/
def Represents (sha1 : Str → H) (d : Disk H) (m : OrderedMap Str Str) : Prop :=
  ∀ h i, (d.bucket (h, i)).map Bucket.entry = (m.fiber sha1 h)[i]?.map entryOf

/-- A session is at work on the bucket of a key with the value `v`. -/
structure Held (sha1 : Str → H) (d : Disk H) (m : OrderedMap Str Str) (b : BigHashBucket H)
    (v : Str) : Prop where
  represents : Represents sha1 d m
  erased : b.erased = false
  lockFile : b.lockFile = some b.bucketDir
  locked : ∀ p, d.lockFile p = decide (p = b.bucketDir)
  hash : b.bucketDir.1 = sha1 b.key
  entry : (m.fiber sha1 b.bucketDir.1)[b.bucketDir.2]? = some (b.key, v)

section

variable {sha1 : Str → H} {d : Disk H} {m m' : OrderedMap Str Str} {b : BigHashBucket H}
  {v key k : Str} {p : Dir H}

/-- A bucket may change together with the entry at its place. -/
lemma Represents.setBucket {dir : Option Bucket} (hd : Represents sha1 d m)
    (hp : dir.map Bucket.entry = (m'.fiber sha1 p.1)[p.2]?.map entryOf)
    (hne : ∀ h i, (h, i) ≠ p → (m'.fiber sha1 h)[i]? = (m.fiber sha1 h)[i]?) :
    Represents sha1 (d.setBucket p dir) m' := by
  intro h i
  rw [bucket_setBucket]
  by_cases hi : (h, i) = p
  · subst hi
    simpa using hp
  · rw [Function.update_of_ne hi, hne h i hi]
    exact hd h i

lemma Represents.setLock (hd : Represents sha1 d m) (p : Dir H) (x : Bool) :
    Represents sha1 (d.setLock p x) m := hd

lemma Represents.opened (hd : Represents sha1 d m) :
    Represents sha1 (d.opened (sha1 key, m.place sha1 key) key) (m.touch key []) := by
  have hrow := hd (sha1 key) (m.place sha1 key)
  have hentry := OrderedMap.getElem?_fiber_touch_place (m := m) (f := sha1) (k := key) (v := [])
  rw [Disk.opened]
  cases hb : d.bucket (sha1 key, m.place sha1 key) with
  | some dir =>
      obtain ⟨e, he, -⟩ : ∃ e, (m.fiber sha1 (sha1 key))[m.place sha1 key]? = some e ∧
          entryOf e = dir.entry := by
        rw [hb] at hrow
        exact Option.map_eq_some_iff.1 hrow.symm
      have hmem : key ∈ m.entries.map Prod.fst := by
        by_contra hmem
        have hlt := (List.getElem?_eq_some_iff.1 he).1
        rw [OrderedMap.place_of_notMem hmem] at hlt
        omega
      rw [OrderedMap.touch_of_mem hmem]
      exact hd.setLock _ _
  | none =>
      have hfree : (m.fiber sha1 (sha1 key))[m.place sha1 key]? = none := by
        rw [hb] at hrow
        exact Option.map_eq_none_iff.1 hrow.symm
      have hmem : key ∉ m.entries.map Prod.fst := by
        intro hmem
        rw [OrderedMap.touch_of_mem hmem, hfree] at hentry
        exact absurd hentry (by simp)
      refine (hd.setBucket ?_ fun h i hi => ?_).setLock _ _
      · rw [hentry, OrderedMap.get?_eq_none_iff.2 hmem]
        rfl
      · exact OrderedMap.getElem?_fiber_touch_of_ne hi

lemma lockFile_opened (hlock : ∀ p, d.lockFile p = false) (p q : Dir H) :
    (d.opened p key).lockFile q = decide (q = p) := by
  have hset : (d.opened p key).lockFile = Function.update d.lockFile p true := by
    rw [Disk.opened]
    cases d.bucket p <;> rfl
  rw [hset, Function.update_apply, hlock q]
  by_cases hq : q = p <;> simp [hq]

/-- The constructor takes the bucket at the place of its key. -/
lemma construct_ok (hd : Represents sha1 d m) (hlock : ∀ p, d.lockFile p = false)
    (hroom : m.place sha1 key < maxBuckets) :
    BigHashBucket.construct sha1 key d =
      (.ok (bucketAt (sha1 key, m.place sha1 key) key),
        d.opened (sha1 key, m.place sha1 key) key) := by
  have hprobe := probe_ok key (n := 0) (fun i _ => by simpa using hd (sha1 key) i) hlock hroom
  rwa [Nat.zero_add] at hprobe

lemma held_opened (hd : Represents sha1 d m) (hlock : ∀ p, d.lockFile p = false) (key : Str) :
    Held sha1 (d.opened (sha1 key, m.place sha1 key) key) (m.touch key [])
      (bucketAt (sha1 key, m.place sha1 key) key) ((m.get? key).getD []) where
  represents := hd.opened
  erased := rfl
  lockFile := rfl
  locked := lockFile_opened hlock _
  hash := rfl
  entry := OrderedMap.getElem?_fiber_touch_place

lemma Held.bucket (h : Held sha1 d m b v) :
    ∃ dir, d.bucket b.bucketDir = some dir ∧ dir.key = some b.key ∧ dir.value.getD [] = v := by
  have hrow := h.represents b.bucketDir.1 b.bucketDir.2
  rw [h.entry] at hrow
  obtain ⟨dir, hdir, he⟩ := Option.map_eq_some_iff.1 hrow
  exact ⟨dir, hdir, (Prod.mk.inj he).1, (Prod.mk.inj he).2⟩

lemma Held.get? (h : Held sha1 d m b v) : m.get? b.key = some v :=
  OrderedMap.get?_eq_some_iff.2 (OrderedMap.mem_fiber.1 (List.mem_of_getElem? h.entry)).1

lemma Held.call_get (h : Held sha1 d m b v) : call b .get d = (.value v, b, d) := by
  obtain ⟨dir, hdir, -, hv⟩ := h.bucket
  rw [call_get_ok h.erased hdir, hv]

lemma Held.call_set (h : Held sha1 d m b v) (value : Str) :
    ∃ d', call b (.set value) d = (.done, b, d') ∧ Held sha1 d' (m.set b.key value) b value := by
  obtain ⟨dir, hdir, hkey, -⟩ := h.bucket
  have hset : b.set value d =
      (.ok (), d.setBucket b.bucketDir (some { dir with value := some value })) := by
    simp only [BigHashBucket.set, h.erased, h.lockFile, Option.isNone_some, Bool.false_eq_true,
      if_false]
    rw [get_bind, hdir]
    rfl
  refine ⟨_, by simp only [call, hset]; rfl, ?_⟩
  have hentry := OrderedMap.getElem?_fiber_set (v := value) h.entry
  refine ⟨h.represents.setBucket ?_ fun h' i hi => ?_, h.erased, h.lockFile, h.locked, h.hash,
    hentry⟩
  · simp [hentry, Bucket.entry, entryOf, hkey]
  · exact OrderedMap.getElem?_fiber_set_of_ne h.entry hi

/-- `erase` takes the directory and the lock file away. -/
lemma Held.call_erase (h : Held sha1 d m b v) :
    ∃ b' d', call b .erase d = (.done, b', d') ∧ b'.lockFile = none ∧
      d'.bucket = Function.update d.bucket b.bucketDir none ∧ ∀ p, d'.lockFile p = false := by
  have herase : b.erase d = (.ok { b with lockFile := none, erased := true },
      (d.setBucket b.bucketDir none).setLock b.bucketDir false) := by
    simp only [BigHashBucket.erase, h.lockFile, Option.isNone_some, Bool.false_eq_true, if_false]
    rw [modify_bind, bind_ok (unlock_ok h.lockFile (by simp [h.locked]))]
    rfl
  refine ⟨_, _, by simp only [call, herase]; rfl, rfl, rfl, fun p => ?_⟩
  rw [lockFile_setLock, Function.update_apply, lockFile_setBucket, h.locked]
  by_cases hp : p = b.bucketDir <;> simp [hp]

/-- When no bucket is behind, the others are the buckets of the map without the key. -/
lemma Held.represents_erase {d' : Disk H} (h : Held sha1 d m b v)
    (hlast : (m.fiber sha1 b.bucketDir.1).length ≤ b.bucketDir.2 + 1)
    (hd' : d'.bucket = Function.update d.bucket b.bucketDir none) :
    Represents sha1 d' (m.erase b.key) := by
  have hset : Represents sha1 (d.setBucket b.bucketDir none) (m.erase b.key) := by
    refine h.represents.setBucket ?_ fun h' i hi => ?_
    · rw [OrderedMap.getElem?_fiber_erase h.entry hlast, if_pos rfl]
      rfl
    · rw [OrderedMap.getElem?_fiber_erase h.entry hlast, if_neg hi]
  intro h' i
  rw [hd']
  exact hset h' i

/-- The destructor. -/
lemma Held.close (h : Held sha1 d m b v) :
    Represents sha1 (b.unlock d).2 m ∧ ∀ p, (b.unlock d).2.lockFile p = false := by
  rw [unlock_ok h.lockFile (by simp [h.locked])]
  refine ⟨h.represents.setLock _ _, fun p => ?_⟩
  rw [lockFile_setLock, Function.update_apply, h.locked]
  by_cases hp : p = b.bucketDir <;> simp [hp]

/-- The calls of a session answer as the map does, and leave the buckets of the map after them. -/
lemma Held.calls_ok {ops : List Op} (h : Held sha1 d m b v)
    (hlast : ∀ op ∈ ops.dropLast, op ≠ .erase)
    (hnew : .erase ∈ ops → (m.fiber sha1 b.bucketDir.1).length ≤ b.bucketDir.2 + 1) :
    ∃ as b' d' m', calls b d ops = (as, b', d') ∧ as = (specCalls (some v) ops).1 ∧
      Represents sha1 (b'.unlock d').2 m' ∧ (∀ p, (b'.unlock d').2.lockFile p = false) ∧
      m'.get? b.key = (specCalls (some v) ops).2 ∧ ∀ k ≠ b.key, m'.get? k = m.get? k := by
  induction ops generalizing d m v with
  | nil => exact ⟨_, _, _, m, rfl, rfl, h.close.1, h.close.2, h.get?, fun _ _ => rfl⟩
  | cons op ops ih =>
      have htail : ∀ op ∈ ops.dropLast, op ≠ .erase := by
        intro op' hop'
        refine hlast op' ?_
        rw [List.dropLast_cons_of_ne_nil (List.ne_nil_of_mem (List.mem_of_mem_dropLast hop'))]
        exact List.mem_cons_of_mem _ hop'
      cases op with
      | get =>
          obtain ⟨as, b', d', m', hcalls, has, hrest⟩ :=
            ih h htail fun hin => hnew (List.mem_cons_of_mem _ hin)
          exact ⟨_, b', d', m', by rw [BigHash.calls, h.call_get]; simp only [hcalls]; rfl,
            by rw [has]; rfl, hrest⟩
      | set value =>
          obtain ⟨d₁, hcall, h₁⟩ := h.call_set value
          obtain ⟨as, b', d', m', hcalls, has, hrep, hlock, hkey, hother⟩ :=
            ih h₁ htail fun hin => by
              rw [OrderedMap.fiber_set, List.length_map]
              exact hnew (List.mem_cons_of_mem _ hin)
          refine ⟨_, b', d', m', by rw [BigHash.calls, hcall]; simp only [hcalls]; rfl,
            by rw [has]; rfl, hrep, hlock, hkey, fun k hk => ?_⟩
          rw [hother k hk, OrderedMap.get?_set_of_ne hk]
      | erase =>
          -- the last call of the session
          have hnil : ops = [] := by
            by_contra hne
            refine hlast .erase ?_ rfl
            rw [List.dropLast_cons_of_ne_nil hne]
            exact List.mem_cons_self
          subst hnil
          obtain ⟨b', d', hcall, hb', hd', hlock⟩ := h.call_erase
          refine ⟨_, b', d', m.erase b.key, by rw [BigHash.calls, hcall]; rfl, rfl, ?_, ?_,
            OrderedMap.get?_erase_self, fun k hk => OrderedMap.get?_erase_of_ne hk⟩
          · rw [unlock_none hb']
            exact h.represents_erase (hnew (by simp)) hd'
          · rw [unlock_none hb']
            exact hlock

/-! ### Sessions -/

lemma valueAfter_concat (history : List (Str × List Op)) (s : Str × List Op) (k : Str) :
    valueAfter (history ++ [s]) k =
      if s.1 = k then (specCalls (some ((valueAfter history k).getD [])) s.2).2
      else valueAfter history k := by
  simp [valueAfter]

lemma valueAfter_of_notMem {history : List (Str × List Op)} (h : k ∉ history.map Prod.fst) :
    valueAfter history k = none := by
  induction history using List.reverseRecOn with
  | nil => rfl
  | append_singleton history s ih =>
      simp only [List.map_append, List.mem_append, List.map_singleton, List.mem_singleton,
        not_or] at h
      rw [valueAfter_concat, if_neg (fun hs => h.2 hs.symm), ih h.1]

/-- The buckets of a hash value are as many as its live keys. -/
lemma length_liveKeys {history : List (Str × List Op)} (hm : ∀ k, m.get? k = valueAfter history k)
    (h : H) : (liveKeys sha1 history h).length = (m.fiber sha1 h).length := by
  have hlen : ((m.fiber sha1 h).map Prod.fst).length = (m.fiber sha1 h).length := List.length_map _
  rw [← hlen]
  refine List.Perm.length_eq ((List.perm_ext_iff_of_nodup ?_ OrderedMap.nodup_fiber).2 fun k => ?_)
  · exact (List.nodup_dedup _).filter _
  · have hlive : (valueAfter history k).isSome ↔ k ∈ m.entries.map Prod.fst := by
      rw [← hm k, ← not_iff_not, ← OrderedMap.get?_eq_none_iff, Option.not_isSome_iff_eq_none]
    have hseen : (valueAfter history k).isSome → k ∈ history.map Prod.fst := by
      intro hk
      by_contra hout
      rw [valueAfter_of_notMem hout] at hk
      exact absurd hk (by simp)
    simp only [liveKeys, List.mem_filter, List.mem_dedup, decide_eq_true_eq]
    constructor
    · rintro ⟨-, hh, hk⟩
      obtain ⟨e, he, rfl⟩ := List.mem_map.1 (hlive.1 hk)
      exact List.mem_map_of_mem (OrderedMap.mem_fiber.2 ⟨he, hh⟩)
    · intro hk
      obtain ⟨e, he, rfl⟩ := List.mem_map.1 hk
      obtain ⟨hin, hh⟩ := OrderedMap.mem_fiber.1 he
      have hk := hlive.2 (List.mem_map_of_mem hin)
      exact ⟨hseen hk, hh, hk⟩

/-- Between two sessions no lock is held, and the buckets are those of the map. -/
def Inv (sha1 : Str → H) (w : World H) : Prop :=
  ∃ m, Represents sha1 w.disk m ∧ (∀ p, w.disk.lockFile p = false) ∧
    ∀ k, m.get? k = valueAfter w.history k

lemma inv_new : Inv sha1 (World.new H) :=
  ⟨OrderedMap.empty, fun _ _ => rfl, fun _ => rfl, fun _ => rfl⟩

/-- The bucket of a session that erases is the last one of its hash value. -/
lemma Represents.last_of_newest (hd : Represents sha1 d m)
    (hsize : ((m.touch key []).fiber sha1 (sha1 key)).length ≤ maxBuckets)
    (hnew : Newest sha1 d key) :
    ((m.touch key []).fiber sha1 (sha1 key)).length ≤ m.place sha1 key + 1 := by
  by_cases hk : key ∈ m.entries.map Prod.fst
  · have hentry := OrderedMap.getElem?_fiber_touch_place (m := m) (f := sha1) (k := key) (v := [])
    rw [OrderedMap.touch_of_mem hk] at hsize hentry ⊢
    by_contra hlt
    have hhere := hd (sha1 key) (m.place sha1 key)
    have hnext := hd (sha1 key) (m.place sha1 key + 1)
    rw [hentry] at hhere
    obtain ⟨dir, hdir, he⟩ := Option.map_eq_some_iff.1 hhere
    have hkey : (d.bucket (sha1 key, m.place sha1 key)).bind (·.key) = some key := by
      rw [hdir]
      exact (Prod.mk.inj he).1
    rw [hnew (m.place sha1 key) (by omega) (m.place sha1 key + 1) (by omega) (by omega) hkey,
      List.getElem?_eq_getElem (by omega)] at hnext
    exact absurd hnext (by simp)
  · rw [OrderedMap.place_of_notMem hk, OrderedMap.fiber_touch_of_notMem hk]
    simp

/-- An orderly session answers as the map does. -/
lemma Inv.session_ok {w : World H} {ops : List Op} (hw : Inv sha1 w)
    (hs : Orderly sha1 w (key, ops)) :
    ∃ d, session sha1 key ops w.disk =
        (.ok (specCalls (some ((valueAfter w.history key).getD [])) ops).1, d) ∧
      Inv sha1 { disk := d, history := w.history ++ [(key, ops)] } := by
  obtain ⟨m, hrep, hlock, hm⟩ := hw
  have htouch : ∀ k, (m.touch key []).get? k = valueAfter (w.history ++ [(key, [])]) k := by
    intro k
    rw [valueAfter_concat]
    by_cases hk : key = k
    · subst hk
      rw [if_pos rfl, OrderedMap.get?_touch_self, hm]
      rfl
    · rw [if_neg hk, OrderedMap.get?_touch_of_ne (Ne.symm hk), hm]
  have hsize : ((m.touch key []).fiber sha1 (sha1 key)).length ≤ maxBuckets := by
    rw [← length_liveKeys htouch]
    exact hs.room
  have hplace : m.place sha1 key < ((m.touch key []).fiber sha1 (sha1 key)).length :=
    (List.getElem?_eq_some_iff.1 OrderedMap.getElem?_fiber_touch_place).1
  obtain ⟨as, b', d', m', hcalls, has, hrep', hlock', hkey, hother⟩ :=
    (held_opened hrep hlock key).calls_ok hs.erase_last
      fun herase => hrep.last_of_newest hsize (hs.newest herase)
  refine ⟨(b'.unlock d').2, ?_, m', hrep', hlock', fun k => ?_⟩
  · rw [BigHash.session, construct_ok hrep hlock (by omega)]
    simp only [hcalls, has, hm]
  · rw [valueAfter_concat]
    by_cases hk : key = k
    · subst hk
      rw [if_pos rfl, ← hm]
      exact hkey
    · rw [if_neg hk, hother k (Ne.symm hk), OrderedMap.get?_touch_of_ne (Ne.symm hk), hm]

/-- A bucket is somebody's. -/
lemma Represents.exists_entry {h : H} {i : ℕ} {dir : Bucket} (hd : Represents sha1 d m)
    (hi : d.bucket (h, i) = some dir) :
    ∃ e, (m.fiber sha1 h)[i]? = some e ∧ dir.key = some e.1 ∧ dir.value.getD [] = e.2 := by
  have hrow := hd h i
  rw [hi] at hrow
  obtain ⟨e, he, hentry⟩ := Option.map_eq_some_iff.1 hrow.symm
  exact ⟨e, he, (Prod.mk.inj hentry).1.symm, (Prod.mk.inj hentry).2.symm⟩

/-- The directory of a key is erased by a session of it. -/
lemma Represents.session_erase {i : ℕ} {v : Str} (hd : Represents sha1 d m)
    (hlock : ∀ p, d.lockFile p = false) (hi : (m.fiber sha1 (sha1 key))[i]? = some (key, v))
    (hlt : i < maxBuckets) :
    ∃ d', (session sha1 key [.erase] d).2 = d' ∧
      d'.bucket = Function.update d.bucket (sha1 key, i) none ∧ ∀ p, d'.lockFile p = false := by
  have hmem : key ∈ m.entries.map Prod.fst :=
    List.mem_map_of_mem (OrderedMap.mem_fiber.1 (List.mem_of_getElem? hi)).1
  have hentry := OrderedMap.getElem?_fiber_touch_place (m := m) (f := sha1) (k := key) (v := [])
  rw [OrderedMap.touch_of_mem hmem] at hentry
  have hplace : m.place sha1 key = i :=
    (Prod.mk.inj (OrderedMap.place_unique hentry hi rfl)).2
  have hheld := held_opened hd hlock key
  obtain ⟨b', d', hcall, hb', hd', hlock'⟩ := hheld.call_erase
  refine ⟨d', ?_, ?_, hlock'⟩
  · simp only [BigHash.session, construct_ok hd hlock (hplace ▸ hlt), BigHash.calls, hcall]
    rw [unlock_none hb']
  · have hrow := hd (sha1 key) i
    rw [hi] at hrow
    obtain ⟨dir, hdir, -⟩ := Option.map_eq_some_iff.1 hrow
    rw [hd', hplace]
    simp only [Disk.opened, hdir]
    rfl

/-- The key behind an erased bucket is found empty. -/
lemma Inv.erase_in_front {w : World H} (hw : Inv sha1 w) (hnew : ¬ Newest sha1 w.disk key) :
    ∃ k v, k ≠ key ∧ sha1 k = sha1 key ∧ valueAfter w.history k = some v ∧
      (session sha1 k [.get] (session sha1 key [.erase] w.disk).2).1 = .ok [.value []] := by
  obtain ⟨m, hrep, hlock, hm⟩ := hw
  simp only [Newest, not_forall] at hnew
  obtain ⟨i, hi, j, hj, hij, hkey, hbehind⟩ := hnew
  obtain ⟨dir, hdir, hkey⟩ := Option.bind_eq_some_iff.1 hkey
  obtain ⟨dir', hdir'⟩ := Option.ne_none_iff_exists'.1 hbehind
  obtain ⟨⟨key₁, v⟩, he, hk, -⟩ := hrep.exists_entry hdir
  obtain rfl : key₁ = key := Option.some.inj (hk.symm.trans hkey)
  obtain ⟨⟨k, v'⟩, he', -, -⟩ := hrep.exists_entry hdir'
  have hmem := OrderedMap.mem_fiber.1 (List.mem_of_getElem? he')
  have hne : ∀ n < j, ∀ e, (m.fiber sha1 (sha1 key₁))[n]? = some e → e.1 ≠ k := by
    intro n hn e hen hek
    exact absurd (Prod.mk.inj (OrderedMap.place_unique hen he' hek)).2 (by omega)
  refine ⟨k, v', (hne i hij _ he).symm, hmem.2, ?_, ?_⟩
  · rw [← hm]
    exact OrderedMap.get?_eq_some_iff.2 hmem.1
  · obtain ⟨d', hsession, hbucket, hlock'⟩ := hrep.session_erase hlock he hi
    -- the row ends at the hole
    have hidx : ((m.fiber sha1 (sha1 key₁)).take i).findIdx (·.1 = k) = i := by
      have hlen : ((m.fiber sha1 (sha1 key₁)).take i).length = i := by
        have hlt := (List.getElem?_eq_some_iff.1 he).1
        rw [List.length_take]
        omega
      rw [List.findIdx_eq_length.2 fun e hin => ?_, hlen]
      obtain ⟨n, hn⟩ := List.mem_iff_getElem?.1 hin
      have hlt := (List.getElem?_eq_some_iff.1 hn).1
      rw [List.getElem?_take_of_lt (by omega)] at hn
      simpa using hne n (by omega) e hn
    have hrow : ∀ n ≤ i, (d'.bucket (sha1 key₁, 0 + n)).map Bucket.entry =
        ((m.fiber sha1 (sha1 key₁)).take i)[n]?.map entryOf := by
      intro n hn
      rw [Nat.zero_add, hbucket]
      by_cases hni : n = i
      · subst hni
        simp
      · rw [Function.update_of_ne (by simpa using hni), List.getElem?_take_of_lt (by omega)]
        exact hrep _ n
    have hprobe := probe_ok k (k := maxBuckets) (fun n hn => hrow n (hidx ▸ hn)) hlock'
      (by rwa [hidx])
    rw [hidx, Nat.zero_add] at hprobe
    have hnew : (d'.opened (sha1 key₁, i) k).bucket (sha1 key₁, i) = some { key := some k } := by
      simp [Disk.opened, hbucket]
    have hmem' : sha1 k = sha1 key₁ := hmem.2
    rw [hsession, session, BigHashBucket.construct, hmem', hprobe]
    simp only [calls, call_get_ok (b := bucketAt (sha1 key₁, i) k) rfl hnew]
    rfl

lemma Inv.exec {w w' : World H} {s : Str × List Op} {as : Except Exn (List Answer)}
    (hw : Inv sha1 w) (hs : Orderly sha1 w s) (h : (machine sha1).exec w s = some (as, w')) :
    Inv sha1 w' := by
  obtain ⟨key, ops⟩ := s
  obtain ⟨d, hsession, hinv⟩ := hw.session_ok hs
  simp only [machine, hsession, Option.some.injEq, Prod.mk.injEq] at h
  exact h.2 ▸ hinv

end

instance (sha1 : Str → H) (w : World H) (s : Str × List Op) : Decidable (Room sha1 w s) :=
  inferInstanceAs (Decidable (_ ≤ _))

instance (sha1 : Str → H) (d : Disk H) (key : Str) : Decidable (Newest sha1 d key) :=
  have : ∀ i < maxBuckets, Decidable (∀ j < maxBuckets, i < j →
      (d.bucket (sha1 key, i)).bind (·.key) = some key → d.bucket (sha1 key, j) = none) :=
    fun _ _ => Nat.decidableBallLT _ _
  Nat.decidableBallLT maxBuckets _

instance (sha1 : Str → H) (w : World H) (s : Str × List Op) : Decidable (Orderly sha1 w s) :=
  decidable_of_iff
    (Room sha1 w s ∧ (∀ op ∈ s.2.dropLast, op ≠ .erase) ∧
      (.erase ∈ s.2 → Newest sha1 w.disk s.1))
    ⟨fun h => ⟨h.1, h.2.1, h.2.2⟩, fun h => ⟨h.room, h.erase_last, h.newest⟩⟩

/-- Over orderly sessions, with the hash value of a key being anything, the answers of every
session are those of a map: `get` returns what was set last for the key since it was last erased,
whatever is done with other keys.  An erase in front of another bucket makes the key of that bucket
read as empty, whatever its value was. -/
theorem session_eq_valueAfter {sha1 : Str → H} {w : World H}
    {l : List ((Str × List Op) × Except Exn (List Answer))}
    (hrun : Machine.Run (machine sha1) (Orderly sha1) (World.new H) l w) :
    (∀ key ops, Orderly sha1 w (key, ops) → (session sha1 key ops w.disk).1 =
        .ok (specCalls (some ((valueAfter w.history key).getD [])) ops).1) ∧
      ∀ key, ¬ Newest sha1 w.disk key → ∃ k v, k ≠ key ∧ sha1 k = sha1 key ∧
        valueAfter w.history k = some v ∧
          (session sha1 k [.get] (session sha1 key [.erase] w.disk).2).1 = .ok [.value []] := by
  have hinv : Inv sha1 w :=
    hrun.invariant (fun w s as w' hw hs hexec => hw.exec hs hexec) inv_new
  refine ⟨fun key ops hs => ?_, fun key hnew => hinv.erase_in_front hnew⟩
  obtain ⟨d, hsession, -⟩ := hinv.session_ok hs
  rw [hsession]

/-- Two keys of one hash value, the older of which is opened again. -/
theorem session_eq_valueAfter_two : ∃ (w : World Unit) (l : _),
    Machine.Run (machine fun _ => ()) (Orderly fun _ => ()) (World.new Unit) l w ∧
      Orderly (fun _ => ()) w (lit "a", [.get]) ∧
      (session (fun _ => ()) (lit "a") [.get] w.disk).1 =
        .ok (specCalls (some ((valueAfter w.history (lit "a")).getD [])) [.get]).1 := by
  obtain ⟨l, w, hrun, hw⟩ := Machine.exists_run_of_any
    (M := (machine fun _ => ()).guard (Orderly fun _ => ())) (G := Machine.Free)
    (s := World.new Unit)
    [(lit "a", [.set (lit "1")]), (lit "b", [.set (lit "2")]), (lit "b", [.get, .erase])]
    (p := fun x => decide (Orderly (fun _ => ()) x.2 (lit "a", [.get])))
    (fun _ _ _ => trivial) (by decide)
  have hs := of_decide_eq_true hw
  exact ⟨w, l, Machine.run_of_guard hrun, hs,
    (session_eq_valueAfter (Machine.run_of_guard hrun)).1 _ _ hs⟩

/-- A bucket is erased in front of another one, whose key is then found empty. -/
theorem not_session_eq_valueAfter : ∃ (w : World Unit) (l : _),
    Machine.Run (machine fun _ => ()) (Room fun _ => ()) (World.new Unit) l w ∧
      Room (fun _ => ()) w (lit "b", [.get]) ∧ valueAfter w.history (lit "b") = some (lit "1") ∧
      (session (fun _ => ()) (lit "b") [.get] w.disk).1 = .ok [.value []] := by
  obtain ⟨l, w, hrun, hw⟩ := Machine.exists_run_of_any
    (M := (machine fun _ => ()).guard (Room fun _ => ())) (G := Machine.Free)
    (s := World.new Unit)
    [(lit "a", []), (lit "b", [.set (lit "1")]), (lit "a", [.erase])]
    (p := fun x => decide (Room (fun _ => ()) x.2 (lit "b", [.get])) &&
      decide (valueAfter x.2.history (lit "b") = some (lit "1")) &&
      decide ((session (fun _ => ()) (lit "b") [.get] x.2.disk).1 = .ok [.value []]))
    (fun _ _ _ => trivial) (by decide)
  simp only [Bool.and_eq_true, decide_eq_true_eq] at hw
  exact ⟨w, l, Machine.run_of_guard hrun, hw.1.1, hw.1.2, hw.2⟩

end BigHash
end Mycelium
