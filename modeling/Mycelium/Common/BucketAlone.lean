import Mycelium.Common.BucketCalls
import Mycelium.Common.FaultyCalls

/-!
# Opening a bucket when nothing fails

`BucketOpen` has the constructor of a key with every system call, on paths; `BigHash` has it on a
table of buckets, where nothing fails.  When no call fails and no other process is about, the first
does what the second does: it returns the same bucket or throws the same exception, and leaves the
same directories and lock files.
-/

namespace Mycelium

open Lib BigHash BucketLock

namespace BucketOpen

variable {pid : Pid} {ε : Type} {w : World pid}

/-- No call fails. -/
def Faultless (w : World pid) : Prop := w.faults = fun _ => none

lemma Faultless.withSys (h : Faultless w) (s : System) : Faultless (w.withSys s) := h

/-! ### The calls -/

/-- Without failures it does not matter how many calls were made. -/
lemma Faultless.after (h : Faultless w) (n : ℕ) : w.after n = w := by
  obtain ⟨s, faults, sleeps⟩ := w
  obtain rfl : faults = fun _ => none := h
  rfl

lemma Faultless.faults_eq_none (h : Faultless w) (i : ℕ) : w.faults i = none := congrFun h i

lemma Faultless.works (h : Faultless w) (n : ℕ) : w.Works n := fun i _ => h.faults_eq_none i

/-- The code behind a call that can fail. -/
lemma fault_bind_alone {α : Type} (h : Faultless w) (k : Option Errno → Prog ε (World pid) α) :
    (fault >>= k) w = k none w := by
  rw [fault_bind_run, h.faults_eq_none, h.after]

lemma access_alone (h : Faultless w) (path : Str) : (access path : Prog ε (World pid) _) w
    = some (.ok (if (w.sys.dirs path).isSome then none else some .noent), w) := by
  rw [access, fault_bind_alone h]
  rfl

lemma reads_alone (h : Faultless w) (n : ℕ) : (reads n : Prog ε (World pid) _) w
    = some (.ok none, w) := by
  rw [reads_works (h.works n), h.after]

lemma readKey_alone (h : Faultless w) (dir : Str) : (readKey dir : Prog ε (World pid) _) w
    = some (.ok ((w.sys.dirs dir).bind (·.key)), w) := by
  cases hkey : (w.sys.dirs dir).bind (·.key) with
  | none => rw [readKey_fails (.missing (h.faults_eq_none 0) hkey), h.after]
  | some key => rw [readKey_reads ⟨h.works _, hkey⟩, h.after]

lemma mkdir_alone (h : Faultless w) (path : Str) :
    ∃ e, (e = none ∨ e = some .exist) ∧
      (mkdir path : Prog ε (World pid) _) w = some (.ok e, w.withSys (w.sys.made path)) := by
  have hrun := mkdir_run (ε := ε) path (h.faults_eq_none 0)
  rwa [h.after] at hrun

/-- A loop of `mkdir` makes the directories of its list. -/
lemma mkdirs_alone (h : Faultless w) (bufs : List Str) :
    (mkdirs bufs) w = some (.ok (), w.withSys (bufs.foldl System.made w.sys)) := by
  induction bufs generalizing w with
  | nil => rfl
  | cons buf bufs ih =>
      obtain ⟨e, he, hmkdir⟩ := mkdir_alone h buf
      rw [mkdirs, Prog.bind_ok hmkdir, List.foldl_cons]
      rcases he with rfl | rfl
      · exact ih (h.withSys _)
      · exact ih (h.withSys _)

lemma locks_foldl_made (bufs : List Str) (s : System) :
    (bufs.foldl System.made s).locks = s.locks := by
  induction bufs generalizing s with
  | nil => rfl
  | cons buf bufs ih => exact ih (s.made buf)

lemma dirs_foldl_made (bufs : List Str) (s : System) (p : Str) : (bufs.foldl System.made s).dirs p
    = if p ∈ bufs then some ((s.dirs p).getD {}) else s.dirs p := by
  induction bufs generalizing s with
  | nil => rfl
  | cons buf bufs ih =>
      rw [List.foldl_cons, ih]
      by_cases hp : p = buf
      · simp [System.made, System.setDir, hp]
      · simp [System.made, System.setDir, hp]

/-- `create_directories` makes the beginnings of a path that is not there. -/
lemma createDirectories_alone (h : Faultless w) {path : Str} (hpath : w.sys.dirs path = none) :
    createDirectories path w
      = some (.ok (), w.withSys ((beginnings path).foldl System.made w.sys)) := by
  rw [createDirectories, Prog.bind_ok (access_alone h path), hpath]
  exact mkdirs_alone h _

lemma writeLoop_alone (h : Faultless w) {dir : Str} {b : Bucket} {n : ℕ} {k rest : Str}
    (hdir : w.sys.dirs dir = some b) (hk : b.key = some k) (hn : rest.length ≤ n * 8192) :
    writeLoop dir n rest w
      = some (.ok (), w.withSys (w.sys.setDir dir (some { b with key := some (k ++ rest) }))) := by
  induction n generalizing w b k rest with
  | zero =>
      obtain rfl : rest = [] := List.length_eq_zero_iff.1 (by omega)
      have hsame : w.sys.setDir dir (some { b with key := some (k ++ []) }) = w.sys := by
        rw [List.append_nil, ← hk]
        exact System.setDir_self hdir
      rw [hsame]
      rfl
  | succ n ih =>
      simp only [writeLoop, fault_bind_alone h, modifySys_bind_run, hdir]
      have hwritten : (w.withSys (w.sys.setDir dir ((some b).map fun b =>
          { b with key := some (b.key.getD [] ++ rest.take 8192) }))).sys.dirs dir
            = some { b with key := some (k ++ rest.take 8192) } := by
        simp [World.withSys, System.setDir, hk]
      rw [ih (h.withSys _) hwritten rfl (by rw [List.length_drop]; omega)]
      simp [World.withSys, System.setDir, List.append_assoc]

lemma writeKey_alone (h : Faultless w) {dir : Str} {b : Bucket} (hdir : w.sys.dirs dir = some b)
    (key : Str) : writeKey dir key w
      = some (.ok (), w.withSys (w.sys.setDir dir (some { b with key := some key }))) := by
  simp only [writeKey, fault_bind_alone h, sys_bind_run, hdir, modifySys_bind_run]
  have hopened : (w.withSys (w.sys.setDir dir (some { b with key := some [] }))).sys.dirs dir
      = some { b with key := some [] } := by
    simp [World.withSys, System.setDir]
  rw [writeLoop_alone (h.withSys _) hopened rfl (by omega)]
  simp [World.withSys, System.setDir]

lemma getLockfile_free (h : Faultless w) {f : Str} (hf : w.sys.locks f = none) (block : Bool)
    (n : ℕ) : getLockfile block f (n + 1) w
      = some (.ok (), w.withSys (w.sys.setLock f (some (some pid)))) := by
  have hcomes : ComesToWrite block f (n + 1) w
      ((w.after 1).withSys (w.sys.setLock f (some none))) := .new (h.faults_eq_none 0) hf
  rw [h.after] at hcomes
  rw [hcomes.run, writePid_works ((h.withSys _).works 3), (h.withSys _).after]
  simp [World.withSys, System.setLock]

lemma getLockfile_own (h : Faultless w) {f : Str} (hf : w.sys.locks f = some (some pid))
    (block : Bool) (n : ℕ) :
    getLockfile block f (n + 1) w = some (.error (.runtimeError (lit "prevent deadlock")), w) := by
  have hfinds : FindsLock f w := Or.inr ⟨h.faults_eq_none 0, by simp [hf]⟩
  have hread := readLock_run (h.faults_eq_none 0) hf
  rw [if_pos (h.faults_eq_none 1), h.after] at hread
  rw [getLockfile_finds hfinds (by rw [h.after]; exact hread)]
  simp only [if_true]
  rfl

lemma unlock_alone (h : Faultless w) {f : Str} (hf : w.sys.locks f = some (some pid)) :
    unlock f w = some (.ok (), w.withSys (w.sys.setLock f none)) := by
  rw [unlock_works (h.faults_eq_none 0) hf, h.after]

/-! ### The names of the buckets -/

lemma eq_or_length_lt_of_mem_beginnings {path buf : Str} (h : buf ∈ beginnings path) :
    buf = path ∨ buf.length < path.length := by
  rw [beginnings, List.mem_append, List.mem_map, List.mem_singleton] at h
  rcases h with ⟨i, hi, rfl⟩ | rfl
  · have hrange := List.mem_range'_1.1 (List.mem_of_mem_filter hi)
    right
    rw [List.length_take]
    omega
  · exact .inl rfl

/-- The names of the buckets of a hash value, without their numbers. -/
structure Names (H : Type) where
  base : H → Str
  injective : Function.Injective base
  length_eq : ∀ h h', (base h).length = (base h').length

section

variable {H : Type} {N : Names H} {p q : Dir H}

/-- The directory of a bucket. -/
def Names.dir (N : Names H) (p : Dir H) : Str := N.base p.1 ++ lit "-" ++ lit (toString p.2)

/-- The lock file of a bucket. -/
def Names.lock (N : Names H) (p : Dir H) : Str := N.dir p ++ lit ".lock"

lemma Names.length_dir (hp : p.2 < maxBuckets) : (N.dir p).length = (N.base p.1).length + 2 := by
  have hnumbers : ∀ n < maxBuckets, (lit "-" ++ lit (toString n)).length = 2 := by decide
  rw [Names.dir, List.append_assoc, List.length_append, hnumbers p.2 hp]

lemma Names.dir_inj (hp : p.2 < maxBuckets) (hq : q.2 < maxBuckets) :
    N.dir p = N.dir q ↔ p = q := by
  have hnumbers : ∀ m < maxBuckets, ∀ n < maxBuckets,
    lit (toString m) = lit (toString n) → m = n := by decide
  constructor
  · intro h
    rw [Names.dir, Names.dir, List.append_assoc, List.append_assoc] at h
    obtain ⟨hbase, hnumber⟩ := List.append_inj h (N.length_eq p.1 q.1)
    exact Prod.ext (N.injective hbase) (hnumbers _ hp _ hq (List.append_cancel_left hnumber))
  · rintro rfl
    rfl

lemma Names.lock_inj (hp : p.2 < maxBuckets) (hq : q.2 < maxBuckets) :
    N.lock p = N.lock q ↔ p = q := by
  rw [Names.lock, Names.lock, List.append_left_inj, Names.dir_inj hp hq]

/-- No directory of a bucket is above that of another one. -/
lemma Names.dir_mem_beginnings (hp : p.2 < maxBuckets) (hq : q.2 < maxBuckets) :
    N.dir p ∈ beginnings (N.dir q) ↔ p = q := by
  constructor
  · intro h
    rcases eq_or_length_lt_of_mem_beginnings h with h | h
    · exact (Names.dir_inj hp hq).1 h
    · rw [Names.length_dir hp, Names.length_dir hq, N.length_eq p.1 q.1] at h
      exact absurd h (Nat.lt_irrefl _)
  · rintro rfl
    simp [beginnings]

end

/-! ### The table and the files -/

section

variable {H : Type} [DecidableEq H] {N : Names H} {h : H} {d : Disk H} {s : System} {p : Dir H}

/-- The files of the buckets are as in the table. -/
def Agrees (pid : Pid) (N : Names H) (d : Disk H) (s : System) : Prop :=
  ∀ p : Dir H, p.2 < maxBuckets → s.dirs (N.dir p) = d.bucket p ∧
    s.locks (N.lock p) = if d.lockFile p then some (some pid) else none

lemma Agrees.setLock (hs : Agrees pid N d s) (hp : p.2 < maxBuckets) (x : Bool) :
    Agrees pid N (d.setLock p x) (s.setLock (N.lock p) (if x then some (some pid) else none)) := by
  intro q hq
  refine ⟨(hs q hq).1, ?_⟩
  by_cases hqp : q = p
  · subst hqp
    simp [System.setLock]
  · simp [System.setLock, Names.lock_inj hq hp, hqp, (hs q hq).2]

lemma Agrees.setDir (hs : Agrees pid N d s) (hp : p.2 < maxBuckets) (b : Option Bucket) :
    Agrees pid N (d.setBucket p b) (s.setDir (N.dir p) b) := by
  intro q hq
  refine ⟨?_, (hs q hq).2⟩
  by_cases hqp : q = p
  · subst hqp
    simp [System.setDir]
  · simp [System.setDir, Names.dir_inj hq hp, hqp, (hs q hq).1]

/-- The directory of a new bucket, made with those above it. -/
lemma Agrees.made (hs : Agrees pid N d s) (hp : p.2 < maxBuckets) (hnew : d.bucket p = none) :
    Agrees pid N (d.setBucket p (some {})) ((beginnings (N.dir p)).foldl System.made s) := by
  intro q hq
  rw [dirs_foldl_made, locks_foldl_made]
  refine ⟨?_, (hs q hq).2⟩
  by_cases hqp : q = p
  · subst hqp
    simp [Names.dir_mem_beginnings hq hq, (hs q hq).1, hnew]
  · simp [Names.dir_mem_beginnings hq hp, hqp, (hs q hq).1]

omit [DecidableEq H] in
/-- A directory with a shorter name is no bucket. -/
lemma Agrees.createDirectories {path : Str} (hs : Agrees pid N d w.sys) (hw : Faultless w)
    (hpath : ∀ h, path.length ≤ (N.base h).length) :
    ∃ s', createDirectories path w = some (.ok (), w.withSys s') ∧ Agrees pid N d s' := by
  cases hdir : w.sys.dirs path with
  | some b =>
      refine ⟨w.sys, ?_, hs⟩
      rw [BucketOpen.createDirectories, Prog.bind_ok (access_alone hw path), hdir]
      rfl
  | none =>
      refine ⟨_, createDirectories_alone hw hdir, ?_⟩
      intro p hp
      have hbucket : N.dir p ∉ beginnings path := by
        intro hmem
        have hlength := N.length_dir hp
        have hle := hpath p.1
        rcases eq_or_length_lt_of_mem_beginnings hmem with heq | hlt
        · rw [← heq] at hle
          omega
        · omega
      rw [dirs_foldl_made, locks_foldl_made, if_neg hbucket]
      exact hs p hp

/-- What a constructor comes back with, in the two models: the same bucket, or an exception. -/
inductive Answers (N : Names H) (h : H) :
    Except Failure Opened → Except Exn (BigHashBucket H) → Prop
  | ok (key : Str) (n : ℕ) : Answers N h (.ok ⟨N.lock (h, n), key, N.dir (h, n)⟩)
      (.ok { lockFile := some (h, n), key := key, bucketDir := (h, n) })
  | error (x : Failure) : Answers N h (.error x) (.error x.exn)

/-- Code on the files comes back as code on the table does, and leaves the files as the table. -/
def Simulates (N : Names H) (h : H) (x : Prog Failure (World pid) Opened)
    (y : DiskM H (BigHashBucket H)) (w : World pid) (d : Disk H) : Prop :=
  ∃ r s', x w = some (r, w.withSys s') ∧ Answers N h r (y d).1 ∧ Agrees pid N (y d).2 s'

section

variable {α β : Type} {x : Prog Failure (World pid) α} {f : α → Prog Failure (World pid) Opened}
  {y : DiskM H β} {g : β → DiskM H (BigHashBucket H)} {a : α} {b : β} {s₁ : System} {d₁ : Disk H}

omit [DecidableEq H] in
lemma Simulates.bind (hx : x w = some (.ok a, w.withSys s₁)) (hy : y d = (.ok b, d₁))
    (hfg : Simulates N h (f a) (g b) (w.withSys s₁) d₁) :
    Simulates N h (x >>= f) (y >>= g) w d := by
  obtain ⟨r, s', hf, hanswers, hagrees⟩ := hfg
  rw [Simulates, BigHash.bind_ok hy, Prog.bind_ok hx]
  exact ⟨r, s', hf, hanswers, hagrees⟩

omit [DecidableEq H] in
/-- A call that has no counterpart on the table. -/
lemma Simulates.bind_left {y : DiskM H (BigHashBucket H)} (hx : x w = some (.ok a, w.withSys s₁))
    (hfy : Simulates N h (f a) y (w.withSys s₁) d) : Simulates N h (x >>= f) y w d := by
  obtain ⟨r, s', hf, hanswers, hagrees⟩ := hfy
  rw [Simulates, Prog.bind_ok hx]
  exact ⟨r, s', hf, hanswers, hagrees⟩

end

/-- The end of the constructor: `write_key`. -/
lemma simulates_writeKey {n : ℕ} (hs : Agrees pid N d w.sys) (hw : Faultless w)
    (hn : n < maxBuckets) (dir : Bucket) (hdir : d.bucket (h, n) = some dir) (key : Str) :
    Simulates N h
      (do
        stmt .writeKey (N.lock (h, n)) (writeKey (N.dir (h, n)) key)
        return ⟨N.lock (h, n), key, N.dir (h, n)⟩)
      (do
        let b : BigHashBucket H := { lockFile := some (h, n), key := key, bucketDir := (h, n) }
        b.writeKey
        return b)
      w d := by
  have hfiles : w.sys.dirs (N.dir (h, n)) = some dir := (hs (h, n) hn).1.trans hdir
  refine .bind (stmt_ok (writeKey_alone hw hfiles key) _ _) (writeKey_ok dir hdir) ?_
  exact ⟨_, _, rfl, .ok key n, hs.setDir hn _⟩

/-- The loop over the buckets does what the loop over the table does. -/
lemma probe_alone (key : Str) {ns : List ℕ} (fuel : ℕ) (hw : Faultless w)
    (hs : Agrees pid N d w.sys) (hns : ∀ n ∈ ns, n < maxBuckets) :
    Simulates N h (probe (fuel + 1) (N.base h) key ns) (BigHashBucket.probe h key ns) w d := by
  induction ns generalizing w d with
  | nil => exact ⟨_, w.sys, rfl, .error _, hs⟩
  | cons n ns ih =>
      obtain ⟨hn, hrest⟩ := List.forall_mem_cons.1 hns
      obtain ⟨hbucket, hlockFile⟩ := hs (h, n) hn
      have hdir : N.base h ++ lit "-" ++ lit (toString n) = N.dir (h, n) := rfl
      have hlock : N.dir (h, n) ++ lit ".lock" = N.lock (h, n) := rfl
      simp only [BigHashBucket.probe, probe, hdir, hlock]
      cases hlock : d.lockFile (h, n) with
      | true =>
          rw [hlock, if_pos rfl] at hlockFile
          rw [Simulates, BigHash.bind_error (lock_again rfl hlock)]
          have hown := stmt_error (getLockfile_own hw hlockFile true fuel) .lock (N.lock (h, n))
          exact ⟨_, w.sys, Prog.bind_error hown, .error ⟨.lock, N.lock (h, n), _⟩, hs⟩
      | false =>
          rw [hlock, if_neg (by simp)] at hlockFile
          have hfree := stmt_ok (getLockfile_free hw hlockFile true fuel) .lock (N.lock (h, n))
          refine .bind hfree (lock_ok rfl hlock) ?_
          -- From here on the bucket is locked, in both models.
          have hs₁ := hs.setLock (p := (h, n)) hn true
          have hw₁ := hw.withSys (w.sys.setLock (N.lock (h, n)) (some (some pid)))
          have hdirs : (w.withSys (w.sys.setLock (N.lock (h, n)) (some (some pid)))).sys.dirs
            (N.dir (h, n)) = d.bucket (h, n) := hbucket
          refine .bind (access_alone hw₁ _) rfl ?_
          rw [hdirs, bucket_setLock]
          cases hdir : d.bucket (h, n) with
          | none =>
              have hmade := hs₁.made (p := (h, n)) hn hdir
              refine .bind (stmt_ok (createDirectories_alone hw₁ (hdirs.trans hdir)) _ _) rfl ?_
              exact simulates_writeKey hmade (hw₁.withSys _) hn {} (by simp) key
          | some dir =>
              refine .bind_left (readKey_alone hw₁ _) ?_
              rw [hdirs, hdir, Option.bind_some]
              dsimp only
              cases hkey : dir.key with
              | none =>
                  exact simulates_writeKey (d := d.setLock (h, n) true) hs₁ hw₁ hn dir hdir key
              | some k =>
                  by_cases hk : k = key
                  · simp only [if_pos hk]
                    exact ⟨_, _, rfl, .ok key n, hs₁⟩
                  · simp only [if_neg hk]
                    have hunlock := unlock_alone (f := N.lock (h, n)) hw₁
                      (by simp [World.withSys, System.setLock])
                    refine .bind (stmt_ok hunlock _ _) (unlock_ok rfl (by simp)) ?_
                    exact ih (hw₁.withSys _) (hs₁.setLock (p := (h, n)) hn false) hrest

end

/-! ### The constructor of a key -/

/-- A SHA-1 in hexadecimal digits. -/
abbrev Sha1 := {h : Str // h.length = 40 ∧ Byte.slash ∉ h}

/-- The operator `/` puts something between its operands, or nothing, by the first alone. -/
lemma exists_slash_eq (p : Str) : ∃ p', ∀ q, slash p q = p' ++ q := by
  by_cases hp : p = [] ∨ p.getLast? = some Byte.slash
  · exact ⟨p, fun q => if_pos hp⟩
  · exact ⟨p ++ [Byte.slash], fun q => by rw [slash, if_neg hp, List.append_assoc]; rfl⟩

lemma length_le_length_slash (p q : Str) : p.length ≤ (slash p q).length := by
  rw [slash]
  split
  · rw [List.length_append]
    omega
  · rw [List.length_append]
    omega

/-- The two first digits name a directory of their own. -/
lemma exists_base_eq (rootDir : Str) : ∃ p', ∀ h : Sha1,
    slash (slash rootDir (h.1.take 2)) (h.1.drop 2)
      = p' ++ h.1.take 2 ++ Byte.slash :: h.1.drop 2 := by
  obtain ⟨p', hp'⟩ := exists_slash_eq rootDir
  refine ⟨p', fun h => ?_⟩
  obtain ⟨h, hlength, hslash⟩ := h
  have htake : h.take 2 ≠ [] := by
    rw [Ne, ← List.length_eq_zero_iff, List.length_take]
    omega
  rw [hp', slash, if_neg]
  rintro (hnil | hlast)
  · exact htake (List.append_eq_nil_iff.1 hnil).2
  · rw [List.getLast?_append_of_ne_nil _ htake] at hlast
    exact hslash (List.mem_of_mem_take (List.mem_of_getLast? hlast))

/-- The names below a root directory. -/
def Names.root (rootDir : Str) : Names Sha1 where
  base h := slash (slash rootDir (h.1.take 2)) (h.1.drop 2)
  injective h h' heq := by
    obtain ⟨p', hp'⟩ := exists_base_eq rootDir
    dsimp only at heq
    rw [hp', hp', List.append_assoc, List.append_assoc] at heq
    have hlength : (h.1.take 2).length = (h'.1.take 2).length := by
      rw [List.length_take, List.length_take, h.2.1, h'.2.1]
    obtain ⟨htake, hdrop⟩ := List.append_inj (List.append_cancel_left heq) hlength
    have hdigits : h.1.take 2 ++ h.1.drop 2 = h'.1.take 2 ++ h'.1.drop 2 := by
      rw [htake, (List.cons.inj hdrop).2]
    exact Subtype.ext (by simpa using hdigits)
  length_eq h h' := by
    obtain ⟨p', hp'⟩ := exists_base_eq rootDir
    simp [hp', h.2.1, h'.2.1]

/-- When no call fails and no other process is about, the constructor of a key does on the files
what it does on the table. -/
theorem ofKey_refines {sha1 : Str → Sha1} {rootDir key : Str} {fuel : ℕ} {d : Disk Sha1}
    (hw : Faultless w) (hs : Agrees pid (.root rootDir) d w.sys) :
    Simulates (.root rootDir) (sha1 key) (ofKey (fun k => (sha1 k).1) (fuel + 1) rootDir key)
      (BigHashBucket.construct sha1 key) w d := by
  have htoplevel : ∀ h, (slash rootDir ((sha1 key).1.take 2)).length
      ≤ ((Names.root rootDir).base h).length := by
    intro h
    rw [(Names.root rootDir).length_eq h (sha1 key)]
    exact length_le_length_slash _ _
  have hnumbers : ∀ n ∈ List.range' 0 maxBuckets, n < maxBuckets := by decide
  obtain ⟨s₁, hcreate, hs₁⟩ := hs.createDirectories hw htoplevel
  rw [ofKey, BigHashBucket.construct]
  refine .bind_left (stmt_ok hcreate _ _) ?_
  exact probe_alone key fuel (hw.withSys s₁) hs₁ hnumbers

/-- An empty root directory is the empty table. -/
example (pid : Pid) (rootDir : Str) (running : Pid → Bool) :
    Agrees pid (.root rootDir) (Disk.new Sha1) ⟨fun _ => none, fun _ => none, running⟩ :=
  fun _ _ => ⟨rfl, rfl⟩

end BucketOpen

end Mycelium
