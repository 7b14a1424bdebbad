import Mycelium.Common.BigHash

/-!
# The calls on a bucket

A bucket is locked by its constructor, and has `lock` and `unlock` for its users.  `set` and `erase`
lock a bucket that is not locked.  That a bucket is locked is known by the name of its lock file,
and `unlock` clears the name, so that there is no file left to lock: after the first `unlock`, each
`lock`, `set` and `erase` is an exception, and the value stays what it was.
-/

namespace Mycelium

open BigHash

namespace BigHashBucket

variable {H : Type} [DecidableEq H]

/-- The constructor of a bucket directory; `name` gives the text of a path. -/
def attach (name : Dir H → Str) (p : Dir H) : DiskM H (BigHashBucket H) := do
  let b : BigHashBucket H := { lockFile := some p, key := [], bucketDir := p }
  match (← getThe (Disk H)).bucket p with
  | none =>
      throw (.runtimeError (lit "access " ++ name p ++ lit " error: No such file or directory\n"))
  | some dir =>
      match dir.key with
      | none => throw (.runtimeError (lit "missing key file" ++ name p))
      | some key => do
          b.lock
          -- `read_key`
          return { b with key := key }

end BigHashBucket

namespace BigHash

variable {H : Type} [DecidableEq H]

/-- The member functions of a bucket. -/
inductive Member where
  | lock
  | unlock
  | call (op : Op)
deriving DecidableEq, Repr

/-- One call of a member function; the caller catches what it throws. -/
def perform (b : BigHashBucket H) (m : Member) (d : Disk H) : Answer × BigHashBucket H × Disk H :=
  match m with
  | .lock =>
      match b.lock d with
      | (.ok _, d) => (.done, b, d)
      | (.error e, d) => (.threw e, b, d)
  | .unlock =>
      match b.unlock d with
      | (.ok b, d) => (.done, b, d)
      | (.error e, d) => (.threw e, b, d)
  | .call op => call b op d

/-- The bucket and the disk after some calls. -/
def performs (b : BigHashBucket H) (d : Disk H) (l : List Member) : BigHashBucket H × Disk H :=
  l.foldl (fun s m => (perform s.1 m s.2).2) (b, d)

/-- A bucket that a constructor has returned, with the disk that it has left. -/
def Obtained (sha1 : Str → H) (name : Dir H → Str) (b : BigHashBucket H) (d : Disk H) : Prop :=
  ∃ d₀, (∃ key, BigHashBucket.construct sha1 key d₀ = (.ok b, d)) ∨
    ∃ p, BigHashBucket.attach name p d₀ = (.ok b, d)

/-- The value in the directory of a bucket. -/
def valueOf (b : BigHashBucket H) (d : Disk H) : Str :=
  ((d.bucket b.bucketDir).bind (·.value)).getD []

/-- What was set last, before the first `unlock`. -/
def lastSet (v : Str) : List Member → Str
  | [] => v
  | .unlock :: _ => v
  | .call (.set value) :: l => lastSet value l
  | _ :: l => lastSet v l

/-! ### One call -/

/-- A bucket with a value, which is locked or not. -/
structure Open (locked : Bool) (v : Str) (b : BigHashBucket H) (d : Disk H) : Prop where
  erased : b.erased = false
  lockFile : b.lockFile = if locked then some b.bucketDir else none
  locks : locked = true → d.lockFile b.bucketDir = true
  bucket : ∃ dir, d.bucket b.bucketDir = some dir ∧ dir.value.getD [] = v

/-- The error of `lock` on a bucket without the name of a lock file. -/
def emptyLockFile : Exn := .runtimeError (lit "Empty m_lock_file")

section

variable {locked : Bool} {v : Str} {b : BigHashBucket H} {d : Disk H}

omit [DecidableEq H] in
lemma bind_error {α β : Type} {x : DiskM H α} {f : α → DiskM H β} {e : Exn} {d d' : Disk H}
    (h : x d = (.error e, d')) : (x >>= f) d = (.error e, d') := by
  change (ExceptT.bindCont f (x d).1) (x d).2 = (.error e, d')
  rw [h]
  rfl

lemma lock_none (hb : b.lockFile = none) (d : Disk H) : b.lock d = (.error emptyLockFile, d) := by
  simp only [BigHashBucket.lock, hb]
  rfl

lemma lock_again {p : Dir H} (hb : b.lockFile = some p) (hp : d.lockFile p = true) :
    b.lock d = (.error (.runtimeError (lit "prevent deadlock")), d) := by
  simp only [BigHashBucket.lock, hb, BigHashBucket.getLockfile]
  rw [get_bind, if_pos hp]
  rfl

lemma Open.perform_get (h : Open locked v b d) : perform b (.call .get) d = (.value v, b, d) := by
  obtain ⟨dir, hdir, hv⟩ := h.bucket
  rw [perform, call_get_ok h.erased hdir, hv]

lemma Open.perform_lock (h : Open locked v b d) :
    perform b .lock d = (.threw (if locked then .runtimeError (lit "prevent deadlock")
      else emptyLockFile), b, d) := by
  cases locked with
  | true => simp only [perform, lock_again h.lockFile (h.locks rfl), if_true]
  | false => simp only [perform, lock_none h.lockFile, Bool.false_eq_true, if_false]

lemma Open.perform_unlock (h : Open locked v b d) :
    ∃ b' d', perform b .unlock d = (.done, b', d') ∧ Open false v b' d' := by
  cases locked with
  | true =>
      refine ⟨_, _, by simp only [perform, unlock_ok h.lockFile (h.locks rfl)]; rfl, ?_⟩
      exact ⟨h.erased, rfl, by simp, by simpa using h.bucket⟩
  | false => exact ⟨b, d, by simp only [perform, unlock_none h.lockFile], h⟩

lemma Open.perform_set (h : Open locked v b d) (value : Str) :
    ∃ d', perform b (.call (.set value)) d
      = (if locked then .done else .threw emptyLockFile, b, d') ∧
      Open locked (if locked then value else v) b d' := by
  cases locked with
  | true =>
      obtain ⟨dir, hdir, -⟩ := h.bucket
      have hlock : b.lockFile = some b.bucketDir := h.lockFile
      have hset : b.set value d =
          (.ok (), d.setBucket b.bucketDir (some { dir with value := some value })) := by
        simp only [BigHashBucket.set, h.erased, hlock, Option.isNone_some, Bool.false_eq_true,
          if_false]
        rw [get_bind, hdir]
        rfl
      refine ⟨d.setBucket b.bucketDir (some { dir with value := some value }),
        by simp only [perform, call, hset, if_true], h.erased, h.lockFile, h.locks, ?_⟩
      exact ⟨{ dir with value := some value }, by simp, rfl⟩
  | false =>
      have hlock : b.lockFile = none := h.lockFile
      have hset : b.set value d = (.error emptyLockFile, d) := by
        simp only [BigHashBucket.set, h.erased, hlock, Option.isNone_none, Bool.false_eq_true,
          if_false, if_true]
        exact bind_error (lock_none hlock d)
      exact ⟨d, by simp only [perform, call, hset]; rfl, h⟩

lemma Open.perform_erase (h : Open locked v b d) :
    (perform b (.call .erase) d).1 = if locked then .done else .threw emptyLockFile := by
  cases locked with
  | true =>
      have hlock : b.lockFile = some b.bucketDir := h.lockFile
      have herase : b.erase d = (.ok { b with lockFile := none, erased := true },
          (d.setBucket b.bucketDir none).setLock b.bucketDir false) := by
        simp only [BigHashBucket.erase, hlock, Option.isNone_some, Bool.false_eq_true, if_false]
        rw [modify_bind, bind_ok (unlock_ok hlock (by simp [h.locks rfl]))]
        rfl
      simp only [perform, call, herase]
      rfl
  | false =>
      have hlock : b.lockFile = none := h.lockFile
      have herase : b.erase d = (.error emptyLockFile, d) := by
        simp only [BigHashBucket.erase, hlock, Option.isNone_none, if_true]
        exact bind_error (lock_none hlock d)
      simp only [perform, call, herase]
      rfl

end

/-! ### Many calls -/

lemma performs_cons (b : BigHashBucket H) (d : Disk H) (m : Member) (l : List Member) :
    performs b d (m :: l) = performs (perform b m d).2.1 (perform b m d).2.2 l := rfl

/-- A bucket stays locked up to the first `unlock`, and has the value that was set last before
it. -/
lemma Open.performs {v : Str} {b : BigHashBucket H} {d : Disk H} {l : List Member} {locked : Bool}
    (h : Open locked v b d) (hl : ∀ m ∈ l, m ≠ .call .erase) :
    Open (locked && decide (.unlock ∉ l)) (if locked then lastSet v l else v)
      (performs b d l).1 (performs b d l).2 := by
  induction l generalizing locked v b d with
  | nil => cases locked <;> exact h
  | cons m l ih =>
      obtain ⟨hm, hrest⟩ := List.forall_mem_cons.1 hl
      rw [performs_cons]
      cases m with
      | lock =>
          rw [h.perform_lock]
          simpa [lastSet] using ih h hrest
      | unlock =>
          obtain ⟨b', d', hperform, hopen⟩ := h.perform_unlock
          rw [hperform]
          simpa [lastSet] using ih hopen hrest
      | call op =>
          cases op with
          | set value =>
              obtain ⟨d', hperform, hopen⟩ := h.perform_set value
              rw [hperform]
              cases locked <;> simpa [lastSet] using ih hopen hrest
          | get =>
              rw [h.perform_get]
              simpa [lastSet] using ih h hrest
          | erase => exact absurd rfl hm

/-! ### The constructors -/

omit [DecidableEq H] in
lemma ok_inj {α : Type} {a b : α} {d d' : Disk H}
    (h : (pure a : DiskM H α) d = (.ok b, d')) : a = b ∧ d = d' := by
  have hpair : ((.ok a, d) : Except Exn α × Disk H) = (.ok b, d') := h
  simpa using hpair

omit [DecidableEq H] in
/-- A bucket as the constructors leave it. -/
lemma open_of_locked {b : BigHashBucket H} {d : Disk H} (herased : b.erased = false)
    (hname : b.lockFile = some b.bucketDir) (hlock : d.lockFile b.bucketDir = true)
    (hdir : d.bucket b.bucketDir ≠ none) : Open true (valueOf b d) b d := by
  obtain ⟨dir, hdir⟩ := Option.ne_none_iff_exists'.1 hdir
  exact ⟨herased, hname, fun _ => hlock, dir, hdir, by rw [valueOf, hdir]; rfl⟩

/-- The constructor of a key opens one of the buckets that it tries. -/
lemma open_probe {h : H} {key : Str} {ns : List ℕ} {b : BigHashBucket H} {d d' : Disk H}
    (hprobe : BigHashBucket.probe h key ns d = (.ok b, d')) :
    Open true (valueOf b d') b d' ∧ b.bucketDir.2 ∈ ns := by
  induction ns generalizing d with
  | nil => cases hprobe
  | cons n ns ih =>
      rw [BigHashBucket.probe] at hprobe
      cases hfree : d.lockFile (h, n) with
      | true =>
          rw [bind_error (lock_again rfl hfree)] at hprobe
          cases hprobe
      | false =>
          rw [bind_ok (lock_ok rfl hfree), get_bind, bucket_setLock] at hprobe
          cases hdir : d.bucket (h, n) with
          | none =>
              simp only [hdir] at hprobe
              rw [modify_bind, bind_ok (writeKey_ok {} (by simp))] at hprobe
              obtain ⟨rfl, rfl⟩ := ok_inj hprobe
              exact ⟨open_of_locked rfl rfl (by simp) (by simp), List.mem_cons_self⟩
          | some dir =>
              simp only [hdir] at hprobe
              cases hkey : dir.key with
              | none =>
                  simp only [hkey] at hprobe
                  rw [bind_ok (writeKey_ok dir (by simpa using hdir))] at hprobe
                  obtain ⟨rfl, rfl⟩ := ok_inj hprobe
                  exact ⟨open_of_locked rfl rfl (by simp) (by simp), List.mem_cons_self⟩
              | some k =>
                  simp only [hkey] at hprobe
                  split at hprobe
                  · obtain ⟨rfl, rfl⟩ := ok_inj hprobe
                    exact ⟨open_of_locked rfl rfl (by simp) (by simp [hdir]), List.mem_cons_self⟩
                  · -- another key: the bucket is given back
                    rw [bind_ok (unlock_ok rfl (by simp))] at hprobe
                    exact (ih hprobe).imp_right (List.mem_cons_of_mem n)

lemma open_attach {name : Dir H → Str} {p : Dir H} {b : BigHashBucket H} {d d' : Disk H}
    (hattach : BigHashBucket.attach name p d = (.ok b, d')) :
    Open true (valueOf b d') b d' ∧ b.bucketDir = p := by
  rw [BigHashBucket.attach, get_bind] at hattach
  cases hdir : d.bucket p with
  | none =>
      simp only [hdir] at hattach
      cases hattach
  | some dir =>
      simp only [hdir] at hattach
      cases hkey : dir.key with
      | none =>
          simp only [hkey] at hattach
          cases hattach
      | some key =>
          simp only [hkey] at hattach
          cases hfree : d.lockFile p with
          | true =>
              rw [bind_error (lock_again rfl hfree)] at hattach
              cases hattach
          | false =>
              rw [bind_ok (lock_ok rfl hfree)] at hattach
              obtain ⟨rfl, rfl⟩ := ok_inj hattach
              exact ⟨open_of_locked rfl rfl (by simp) (by simp [hdir]), rfl⟩

lemma Obtained.open {sha1 : Str → H} {name : Dir H → Str} {b : BigHashBucket H} {d : Disk H}
    (h : Obtained sha1 name b d) : Open true (valueOf b d) b d := by
  obtain ⟨d₀, ⟨key, hkey⟩ | ⟨p, hp⟩⟩ := h
  · exact (open_probe hkey).1
  · exact (open_attach hp).1

/-- After calls without `erase`, the bucket is locked when there was no `unlock`.  Then `set` and
`erase` succeed; otherwise they throw.  `get` returns what was set last before the first
`unlock`. -/
theorem performs_answers {sha1 : Str → H} {name : Dir H → Str} {b b' : BigHashBucket H}
    {d d' : Disk H} {l : List Member} (hb : Obtained sha1 name b d)
    (hl : ∀ m ∈ l, m ≠ .call .erase) (hperforms : performs b d l = (b', d')) :
    (b'.lockFile.isSome = true ↔ .unlock ∉ l) ∧
      (∀ v, (perform b' (.call (.set v)) d').1
        = if .unlock ∉ l then .done else .threw emptyLockFile) ∧
      ((perform b' (.call .erase) d').1 = if .unlock ∉ l then .done else .threw emptyLockFile) ∧
      (perform b' (.call .get) d').1 = .value (lastSet (valueOf b d) l) := by
  have h := hb.open.performs hl
  rw [hperforms, Bool.true_and, if_pos rfl] at h
  refine ⟨?_, fun v => ?_, ?_, ?_⟩
  · rw [h.lockFile]
    by_cases hunlock : .unlock ∈ l <;> simp [hunlock]
  · obtain ⟨d'', hset, -⟩ := h.perform_set v
    rw [hset]
    simp only [decide_eq_true_eq]
  · rw [h.perform_erase]
    simp only [decide_eq_true_eq]
  · rw [h.perform_get]

/-- A new bucket that is set and read, and then set again. -/
theorem performs_answers_set : ∃ (b b' : BigHashBucket Unit) (d d' : Disk Unit),
    Obtained (fun _ => ()) (fun _ => lit "-0") b d ∧
      performs b d [.call (.set (lit "1")), .call .get] = (b', d') ∧
      (perform b' (.call (.set (lit "2"))) d').1 = .done ∧
      (perform b' (.call .get) d').1 = .value (lit "1") := by
  have hb : Obtained (fun _ => ()) (fun _ => lit "-0") (bucketAt ((), 0) (lit "k"))
      (BigHashBucket.construct (fun _ => ()) (lit "k") (Disk.new Unit)).2 :=
    ⟨Disk.new Unit, .inl ⟨lit "k", rfl⟩⟩
  obtain ⟨-, hset, -, hget⟩ := performs_answers hb
    (l := [.call (.set (lit "1")), .call .get]) (by decide) rfl
  exact ⟨_, _, _, _, hb, rfl, hset (lit "2"), hget⟩

/-- A bucket that has been unlocked can be neither set nor erased. -/
theorem not_performs_answers_unlock : ∃ (b b' : BigHashBucket Unit) (d d' : Disk Unit),
    Obtained (fun _ => ()) (fun _ => lit "-0") b d ∧ performs b d [.unlock] = (b', d') ∧
      (perform b' (.call (.set (lit "1"))) d').1 = .threw emptyLockFile ∧
      (perform b' (.call .erase) d').1 = .threw emptyLockFile ∧
      (perform b' .lock d').1 = .threw emptyLockFile :=
  ⟨_, _, _, _, ⟨Disk.new Unit, .inl ⟨lit "k", rfl⟩⟩, rfl, rfl, rfl, rfl⟩

end BigHash

end Mycelium
