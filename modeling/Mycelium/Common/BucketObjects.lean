import Mycelium.Lib.Objects
import Mycelium.Common.BucketAlone
import Mycelium.Common.BucketFiles

/-!
# Many buckets of one process

A process opens buckets by key or by directory, calls their member functions in any order, and
closes them.  The same program runs on the files, one system call at a time, and on the table of
buckets.  When no call fails and no other process is about, the two give the same answers, and leave
the same directories and lock files: however short the writes are, in whatever order the files of a
directory are removed, and also when the program opens a bucket twice or goes on with one that it
has erased.
-/

namespace Mycelium

open Lib BigHash BucketLock

namespace BucketOpen

variable {pid : Pid} {ε : Type} {w : World pid}

/-! ### The calls when nothing fails -/

namespace Object

variable {b : Object} {dir : Bucket}

lemma putValue_of_some {s : System} (h : s.dirs b.bucketDir = some dir)
    (g : Option Str → Option Str) :
    b.putValue g s = s.setDir b.bucketDir (some { dir with value := g dir.value }) := by
  rw [putValue, h]
  rfl

/-- `get` returns the value. -/
lemma get_alone (h : Faultless w) (hb : b.erased = false) :
    (b.get : Prog Exn (World pid) _) w = some (.ok (b.valueIn w.sys), w) := by
  have hregular : (b.isRegularFile : Prog Exn (World pid) _) w
      = some (.ok ((w.sys.dirs b.bucketDir).bind (·.value)).isSome, w) := by
    rw [isRegularFile, fault_bind_alone h]
    rfl
  rw [get, if_neg (by simp [hb]), Prog.bind_ok hregular, valueIn]
  cases hv : (w.sys.dirs b.bucketDir).bind (·.value) with
  | none => rfl
  | some value =>
      have hsize : (b.fileSize : Prog Exn (World pid) _) w = some (.ok (), w) := by
        rw [fileSize, fault_bind_alone h]
        rfl
      rw [if_pos Option.isSome_some, Prog.bind_ok hsize, fault_bind_alone h]
      dsimp only
      rw [sys_bind_run, hv]
      dsimp only
      rw [Prog.bind_ok (reads_alone h _)]
      rfl

lemma dirs_withSys_setDir (w : World pid) (s : System) (path : Str) (x : Option Bucket) :
    (w.withSys (s.setDir path x)).sys.dirs path = x :=
  dirs_setDir_self ..

lemma setDir_append_nil {s : System} {x : Str} (hdir : s.dirs b.bucketDir = some dir)
    (hx : dir.value = some x) :
    s.setDir b.bucketDir (some { dir with value := some (x ++ []) }) = s := by
  rw [List.append_nil, ← hx]
  exact System.setDir_self hdir

/-- The loop of `set` writes what is left, in pieces of any size. -/
lemma writeValue_alone (h : Faultless w) {n : ℕ} {sizes : List ℕ} {x rest : Str}
    (hdir : w.sys.dirs b.bucketDir = some dir) (hx : dir.value = some x) (hn : rest.length ≤ n) :
    (b.writeValue n sizes rest : Prog ε (World pid) _) w = some (.ok none,
      w.withSys (w.sys.setDir b.bucketDir (some { dir with value := some (x ++ rest) }))) := by
  induction n generalizing w dir sizes x rest with
  | zero =>
      obtain rfl : rest = [] := List.length_eq_zero_iff.1 (by omega)
      rw [setDir_append_nil hdir hx]
      rfl
  | succ n ih =>
      rw [writeValue]
      by_cases hrest : rest = []
      · subst hrest
        rw [if_pos List.isEmpty_nil, setDir_append_nil hdir hx]
        rfl
      · have hpos : 0 < rest.length := List.length_pos_iff.2 hrest
        rw [if_neg (by simpa using hrest), fault_bind_alone h]
        dsimp only
        rw [modifySys_bind_run, putValue_of_some hdir, hx, Option.getD_some]
        set k := min (sizes.headD 8191 + 1) 8192
        rw [ih (h.withSys _) (dirs_withSys_setDir ..) rfl (by rw [List.length_drop]; omega)]
        simp [World.withSys, System.setDir_setDir]

/-- `set` of a bucket whose directory is there. -/
lemma overwrite_alone (h : Faultless w) (hdir : w.sys.dirs b.bucketDir = some dir) (c : Choice)
    (value : Str) : b.overwrite c value w = some (.ok (),
      w.withSys (w.sys.setDir b.bucketDir (some { dir with value := some value }))) := by
  rw [overwrite, fault_bind_alone h]
  dsimp only
  rw [sys_bind_run, if_pos (by simp [hdir]), modifySys_bind_run, putValue_of_some hdir,
    Prog.bind_ok (writeValue_alone (h.withSys _) (dirs_withSys_setDir ..) rfl le_rfl)]
  simp [World.withSys, System.setDir_setDir]
  rfl

lemma overwrite_missing (h : Faultless w) (hdir : w.sys.dirs b.bucketDir = none) (c : Choice)
    (value : Str) :
    b.overwrite c value w = some (.error (.runtimeError (lit "set: open")), w) := by
  rw [overwrite, fault_bind_alone h]
  dsimp only
  rw [sys_bind_run, if_neg (by simp [hdir])]
  rfl

/-- A file is removed from the directory, or is not there. -/
lemma removeFile_alone (h : Faultless w) (isKey : Bool) : ∃ x,
    b.removeFile isKey w = some (.ok (), w.withSys (w.sys.setDir b.bucketDir x)) := by
  rw [removeFile, sys_bind_run]
  split
  · refine ⟨(w.sys.dirs b.bucketDir).map (without isKey), ?_⟩
    rw [fault_bind_alone h]
    rfl
  · refine ⟨w.sys.dirs b.bucketDir, ?_⟩
    rw [System.setDir_self rfl]
    rfl

lemma removeAll_alone (h : Faultless w) (c : Choice) :
    b.removeAll c w = some (.ok (), w.withSys (w.sys.setDir b.bucketDir none)) := by
  rw [removeAll, fault_bind_alone h]
  dsimp only
  rw [sys_bind_run]
  split
  · obtain ⟨x, hx⟩ := removeFile_alone (b := b) h c.keyFirst
    obtain ⟨y, hy⟩ := removeFile_alone (b := b)
      (h.withSys (w.sys.setDir b.bucketDir x)) (!c.keyFirst)
    rw [fault_bind_alone h]
    dsimp only
    rw [Prog.bind_ok hx, Prog.bind_ok hy, fault_bind_alone ((h.withSys _).withSys _)]
    simp [modifySys_run, World.withSys, System.setDir_setDir]
  · next hdir =>
      rw [System.setDir_self (by simpa using hdir)]
      rfl

lemma unlock_missing (h : Faultless w) {f : Str} (hf : w.sys.locks f = none) :
    BucketOpen.unlock f w = some (.error (errSys (lit "unlink") .noent), w) := by
  simp only [BucketOpen.unlock, fault_bind_alone h, sys_bind_run, hf]
  rfl

end Object

/-! ### The same on the files and on the table -/

section

variable {H : Type} {N : Names H} {d : Disk H} {α β α' β' : Type}

/-- A name of a lock file is not empty. -/
lemma Names.lock_ne_nil (p : Dir H) : N.lock p ≠ [] := by
  have hne : lit ".lock" ≠ [] := by decide
  simp [Names.lock, hne]

/-- Code on the files returns or throws what code on the table does, and leaves the files as the
table; `V` relates the values that they return. -/
def Mirrors (N : Names H) (V : α → β → Prop) (x : Prog Exn (World pid) α) (y : DiskM H β)
    (w : World pid) (d : Disk H) : Prop :=
  ∃ r s, x w = some (r, w.withSys s) ∧ Class.Made V r (y d).1 ∧ Agrees pid N (y d).2 s

namespace Mirrors

variable {V : α → β → Prop} {U : α' → β' → Prop}

lemma pure {a : α} {b : β} (hs : Agrees pid N d w.sys) (hV : V a b) :
    Mirrors N V (Pure.pure a) (Pure.pure b) w d :=
  ⟨_, w.sys, rfl, .ok a b hV, hs⟩

lemma throw (hs : Agrees pid N d w.sys) (e : Exn) :
    Mirrors N V (MonadExcept.throw e) (MonadExcept.throw e) w d :=
  ⟨_, w.sys, rfl, .error e, hs⟩

lemma bind {x : Prog Exn (World pid) α} {y : DiskM H β} {f : α → Prog Exn (World pid) α'}
    {g : β → DiskM H β'} (hxy : Mirrors N V x y w d)
    (hfg : ∀ a b s d', V a b → Agrees pid N d' s → Mirrors N U (f a) (g b) (w.withSys s) d') :
    Mirrors N U (x >>= f) (y >>= g) w d := by
  obtain ⟨r, s, hx, hmade, hs⟩ := hxy
  generalize hy : y d = z at hmade hs
  obtain ⟨z, d'⟩ := z
  rw [Mirrors]
  cases hmade with
  | ok a b hV =>
      rw [Prog.bind_ok hx, BigHash.bind_ok hy]
      exact hfg a b s d' hV hs
  | error e =>
      rw [Prog.bind_error hx, BigHash.bind_error hy]
      exact ⟨_, s, rfl, .error e, hs⟩

end Mirrors

/-- An object on the files and one on the table are the same bucket. -/
structure Refers (N : Names H) (b : Object) (b' : BigHashBucket H) : Prop where
  lockFile : b.lockFile = (b'.lockFile.map N.lock).getD []
  key : b.key = b'.key
  bucketDir : b.bucketDir = N.dir b'.bucketDir
  erased : b.erased = b'.erased
  lock_lt : ∀ p, b'.lockFile = some p → p.2 < maxBuckets
  dir_lt : b'.bucketDir.2 < maxBuckets

variable {b : Object} {b' : BigHashBucket H}

lemma Refers.locked (hb : Refers N b b') : b.locked = b'.lockFile.isSome := by
  rw [Object.locked, hb.lockFile]
  cases b'.lockFile with
  | none => rfl
  | some p => simpa using N.lock_ne_nil p

lemma Mirrors.of_eq {V : α → β → Prop} {x : Prog Exn (World pid) α} {y : DiskM H β}
    {r : Except Exn α} {r' : Except Exn β} {s : System} {d' : Disk H}
    (hx : x w = some (r, w.withSys s)) (hy : y d = (r', d')) (hmade : Class.Made V r r')
    (hs : Agrees pid N d' s) :
    Mirrors N V x y w d := by
  refine ⟨r, s, hx, ?_, ?_⟩
  · rwa [hy]
  · rwa [hy]

variable [DecidableEq H]

lemma lock_mirrors (hw : Faultless w) (hs : Agrees pid N d w.sys) (hb : Refers N b b') (fuel : ℕ) :
    Mirrors N (fun _ _ => True) (b.lock (fuel + 1)) b'.lock w d := by
  rw [Object.lock, hb.locked, hb.lockFile]
  cases hlock : b'.lockFile with
  | none => exact .of_eq (s := w.sys) rfl (lock_none hlock d) (.error _) hs
  | some p =>
      have hp := hb.lock_lt p hlock
      have hfile := (hs p hp).2
      rw [if_pos Option.isSome_some, Option.map_some, Option.getD_some]
      cases hd : d.lockFile p with
      | true =>
          rw [hd, if_pos rfl] at hfile
          exact .of_eq (getLockfile_own hw hfile _ _) (lock_again hlock hd) (.error _) hs
      | false =>
          rw [hd, if_neg (by simp)] at hfile
          exact .of_eq (getLockfile_free hw hfile _ _) (lock_ok hlock hd) (.ok _ _ trivial)
            (hs.setLock hp true)

lemma unlock_mirrors (hw : Faultless w) (hs : Agrees pid N d w.sys) (hb : Refers N b b') :
    Mirrors N (Refers N) b.unlock b'.unlock w d := by
  rw [Object.unlock, hb.locked, hb.lockFile]
  cases hlock : b'.lockFile with
  | none => exact .of_eq (s := w.sys) rfl (unlock_none hlock d) (.ok _ _ hb) hs
  | some p =>
      have hp := hb.lock_lt p hlock
      have hfile := (hs p hp).2
      rw [if_pos Option.isSome_some, Option.map_some, Option.getD_some]
      cases hd : d.lockFile p with
      | true =>
          rw [hd, if_pos rfl] at hfile
          refine .of_eq (Prog.bind_ok (unlock_alone hw hfile)) (unlock_ok hlock hd) (.ok _ _ ?_)
            (hs.setLock hp false)
          exact ⟨rfl, hb.key, hb.bucketDir, hb.erased, by simp, hb.dir_lt⟩
      | false =>
          rw [hd, if_neg (by simp)] at hfile
          have hmissing : b'.unlock d
              = (.error (.runtimeError (lit "unlink error: No such file or directory\n")), d) := by
            simp only [BigHashBucket.unlock, hlock]
            rw [get_bind, if_neg (by simp [hd])]
            rfl
          exact .of_eq (Prog.bind_error (Object.unlock_missing hw hfile)) hmissing (.error _) hs

omit [DecidableEq H] in
lemma get_mirrors (hw : Faultless w) (hs : Agrees pid N d w.sys) (hb : Refers N b b') :
    Mirrors N Eq b.get b'.get w d := by
  cases herased : b'.erased with
  | true =>
      rw [Object.get, BigHashBucket.get, hb.erased, herased, if_pos rfl, if_pos rfl]
      exact .throw hs _
  | false =>
      have hget : b'.get d = (.ok (((d.bucket b'.bucketDir).bind (·.value)).getD []), d) := by
        rw [BigHashBucket.get, herased, if_neg (by simp), get_bind]
        rfl
      refine .of_eq (Object.get_alone hw (hb.erased.trans herased)) hget (.ok _ _ ?_) hs
      rw [Object.valueIn, hb.bucketDir, (hs _ hb.dir_lt).1]

omit [DecidableEq H] in
/-- A bucket that is not locked cannot be locked. -/
lemma lock_unlocked (hb : Refers N b b') (hlock : b'.lockFile = none) (fuel : ℕ) :
    b.lock fuel w = some (.error emptyLockFile, w) := by
  rw [Object.lock, hb.locked, hlock]
  rfl

lemma set_mirrors (hw : Faultless w) (hs : Agrees pid N d w.sys) (hb : Refers N b b') (fuel : ℕ)
    (c : Choice) (value : Str) : Mirrors N Eq (b.set fuel c value) (b'.set value) w d := by
  rw [Object.set, hb.locked]
  cases herased : b'.erased with
  | true =>
      rw [BigHashBucket.set, hb.erased, herased, if_pos rfl, if_pos rfl]
      exact .throw hs _
  | false =>
      rw [hb.erased, herased, if_neg (by simp)]
      cases hlock : b'.lockFile with
      | none =>
          -- `set` tries to lock, and there is no name of a lock file left
          refine .of_eq (Prog.bind_error (lock_unlocked hb hlock fuel)) ?_ (.error _) hs
          simp only [BigHashBucket.set, herased, hlock, Option.isNone_none, Bool.false_eq_true,
            if_false, if_true]
          exact BigHash.bind_error (lock_none hlock d)
      | some p =>
          have hfiles : w.sys.dirs b.bucketDir = d.bucket b'.bucketDir := by
            rw [hb.bucketDir]
            exact (hs _ hb.dir_lt).1
          rw [if_pos Option.isSome_some]
          cases hdir : d.bucket b'.bucketDir with
          | none =>
              refine .of_eq (Object.overwrite_missing hw (hfiles.trans hdir) c value) ?_
                (.error _) hs
              simp only [BigHashBucket.set, herased, hlock, Option.isNone_some, Bool.false_eq_true,
                if_false]
              rw [get_bind, hdir]
              rfl
          | some dir =>
              refine .of_eq (Object.overwrite_alone hw (hfiles.trans hdir) c value) ?_ (.ok _ _ rfl)
                (hb.bucketDir ▸ hs.setDir hb.dir_lt _)
              simp only [BigHashBucket.set, herased, hlock, Option.isNone_some, Bool.false_eq_true,
                if_false]
              rw [get_bind, hdir]
              rfl

lemma erase_mirrors (hw : Faultless w) (hs : Agrees pid N d w.sys) (hb : Refers N b b') (fuel : ℕ)
    (c : Choice) : Mirrors N (Refers N) (b.erase fuel c) b'.erase w d := by
  rw [Object.erase, BigHashBucket.erase, hb.locked]
  cases hlock : b'.lockFile with
  | none =>
      exact .of_eq (Prog.bind_error (lock_unlocked hb hlock fuel))
        (BigHash.bind_error (lock_none hlock d)) (.error _) hs
  | some p =>
      rw [if_pos Option.isSome_some, if_neg (by simp)]
      -- in whatever order the files go, the directory is away in the end
      refine .bind (V := fun _ _ => True) (.of_eq (Object.removeAll_alone hw c) rfl
        (.ok _ _ trivial) (hb.bucketDir ▸ hs.setDir hb.dir_lt none)) fun _ _ s d₁ _ hs₁ => ?_
      refine .bind (unlock_mirrors (hw.withSys s) hs₁ hb) fun b₁ b₂ s₂ d₂ hb₁ hs₂ => .pure hs₂ ?_
      exact ⟨hb₁.lockFile, hb₁.key, hb₁.bucketDir, rfl, hb₁.lock_lt, hb₁.dir_lt⟩

omit [DecidableEq H] in
lemma Mirrors.elim {V : α → β → Prop} {x : Prog Exn (World pid) α} {y : DiskM H β}
    (h : Mirrors N V x y w d) :
    (∃ a v s d', x w = some (.ok a, w.withSys s) ∧ y d = (.ok v, d') ∧ V a v ∧ Agrees pid N d' s) ∨
      ∃ e s d', x w = some (.error e, w.withSys s) ∧ y d = (.error e, d') ∧ Agrees pid N d' s := by
  obtain ⟨r, s, hx, hmade, hs⟩ := h
  generalize y d = z at hmade hs
  obtain ⟨z, d'⟩ := z
  cases hmade with
  | ok a v hV => exact .inl ⟨a, v, s, d', hx, rfl, hV, hs⟩
  | error e => exact .inr ⟨e, s, d', hx, rfl, hs⟩

lemma perform_ok {fuel : ℕ} {c : Choice} {m : Member} {a : Answer} {b₁ : Object} {w' : World pid}
    (h : b.call fuel c m w = some (.ok (a, b₁), w')) :
    b.perform fuel c m w = some (a, b₁, w') := by
  rw [Object.perform, h]
  rfl

lemma perform_error {fuel : ℕ} {c : Choice} {m : Member} {e : Exn} {w' : World pid}
    (h : b.call fuel c m w = some (.error e, w')) :
    b.perform fuel c m w = some (.threw e, b, w') := by
  rw [Object.perform, h]
  rfl

/-- The files are as the table, and no call fails. -/
def Match (N : Names H) (w : World pid) (d : Disk H) : Prop :=
  Faultless w ∧ Agrees pid N d w.sys

/-- What the calls of the member functions have in common: a call runs code that mirrors that of the
table, and makes its answer and the new bucket of what the code returns. -/
lemma Mirrors.perform {V : α → β → Prop} {x : Prog Exn (World pid) α} {y : DiskM H β} {fuel : ℕ}
    {c : Choice} {m : Member} {f : α → Answer × Object} {g : β → Answer × BigHashBucket H}
    (hxy : Mirrors N V x y w d) (hw : Faultless w) (hb : Refers N b b')
    (hcall : b.call fuel c m = x >>= fun a => Pure.pure (f a))
    (hok : ∀ v d', y d = (.ok v, d') → BigHash.perform b' m d = ((g v).1, (g v).2, d'))
    (herror : ∀ e d', y d = (.error e, d') → BigHash.perform b' m d = (.threw e, b', d'))
    (hV : ∀ a v, V a v → (f a).1 = (g v).1 ∧ Refers N (f a).2 (g v).2) :
    Option.Rel (fun x y => x.1 = y.1 ∧ Refers N x.2.1 y.2.1 ∧ Match N x.2.2 y.2.2)
      (b.perform fuel c m w) (some (BigHash.perform b' m d)) := by
  rcases hxy.elim with ⟨a, v, s, d', hx, hy, hav, hs⟩ | ⟨e, s, d', hx, hy, hs⟩
  · have hrun : b.call fuel c m w = some (.ok (f a), w.withSys s) := by
      rw [hcall, Prog.bind_ok hx]
      rfl
    rw [perform_ok hrun, hok v d' hy]
    exact .some ⟨(hV a v hav).1, (hV a v hav).2, hw.withSys s, hs⟩
  · have hrun : b.call fuel c m w = some (.error e, w.withSys s) := by
      rw [hcall, Prog.bind_error hx]
    rw [perform_error hrun, herror e d' hy]
    exact .some ⟨rfl, hb, hw.withSys s, hs⟩

/-- A call on the files and on the table: the same answer, the same bucket, the same files. -/
lemma perform_mirrors (hw : Match N w d) (hb : Refers N b b') (fuel : ℕ) (c : Choice) (m : Member) :
    Option.Rel (fun x y => x.1 = y.1 ∧ Refers N x.2.1 y.2.1 ∧ Match N x.2.2 y.2.2)
      (b.perform (fuel + 1) c m w) (some (BigHash.perform b' m d)) := by
  obtain ⟨hw, hs⟩ := hw
  cases m with
  | lock =>
      refine (lock_mirrors hw hs hb fuel).perform (g := fun _ => (.done, b')) hw hb rfl
        (fun v d' hy => ?_) (fun e d' hy => ?_) fun _ _ _ => ⟨rfl, hb⟩
      · rw [BigHash.perform, hy]
      · rw [BigHash.perform, hy]
  | unlock =>
      refine (unlock_mirrors hw hs hb).perform (g := fun b' => (.done, b')) hw hb rfl
        (fun v d' hy => ?_) (fun e d' hy => ?_) fun _ _ hb₁ => ⟨rfl, hb₁⟩
      · rw [BigHash.perform, hy]
      · rw [BigHash.perform, hy]
  | call op =>
      cases op with
      | set value =>
          refine (set_mirrors hw hs hb (fuel + 1) c value).perform (g := fun _ => (.done, b')) hw hb
            rfl (fun v d' hy => ?_) (fun e d' hy => ?_) fun _ _ _ => ⟨rfl, hb⟩
          · rw [BigHash.perform, call, hy]
          · rw [BigHash.perform, call, hy]
      | get =>
          refine (get_mirrors hw hs hb).perform (g := fun v => (.value v, b')) hw hb rfl
            (fun v d' hy => ?_) (fun e d' hy => ?_) fun _ _ hv => ⟨congrArg Answer.value hv, hb⟩
          · rw [BigHash.perform, call, hy]
          · rw [BigHash.perform, call, hy]
      | erase =>
          refine (erase_mirrors hw hs hb (fuel + 1) c).perform (g := fun b' => (.done, b')) hw hb
            rfl (fun v d' hy => ?_) (fun e d' hy => ?_) fun _ _ hb₁ => ⟨rfl, hb₁⟩
          · rw [BigHash.perform, call, hy]
          · rw [BigHash.perform, call, hy]

/-! ### The constructors -/

lemma accessKey_alone (h : Faultless w) (path : Str) : (accessKey path : Prog ε (World pid) _) w
    = some (.ok (if ((w.sys.dirs path).bind (·.key)).isSome then none else some .noent), w) := by
  rw [accessKey, fault_bind_alone h]
  rfl

omit [DecidableEq H] in
/-- Slashes behind the name of a bucket directory are dropped. -/
lemma rdropWhile_dir {p : Dir H} (hp : p.2 < maxBuckets) (k : ℕ) :
    (N.dir p ++ List.replicate k Byte.slash).rdropWhile (· == Byte.slash) = N.dir p := by
  induction k with
  | zero =>
      have hlast : ∀ n < maxBuckets, ∃ x, lit (toString n) = [x] ∧ x ≠ Byte.slash := by decide
      obtain ⟨x, hx, hne⟩ := hlast p.2 hp
      rw [List.replicate_zero, List.append_nil, Names.dir, hx]
      exact List.rdropWhile_concat_neg _ _ _ (by simpa using hne)
  | succ k ih =>
      rw [List.replicate_succ', ← List.append_assoc, List.rdropWhile_concat_pos _ _ _ (by simp)]
      exact ih

/-- When no call fails, the constructor of a bucket directory does on the files what it does on the
table. -/
lemma ofBucket_simulates {h : H} {n : ℕ} (hw : Faultless w) (hs : Agrees pid N d w.sys)
    (hn : n < maxBuckets) (fuel k : ℕ) (block : Bool) :
    Simulates N h (ofBucket (fuel + 1) (N.dir (h, n) ++ List.replicate k Byte.slash) block)
      (BigHashBucket.attach N.dir (h, n)) w d := by
  obtain ⟨hbucket, hlockFile⟩ := hs (h, n) hn
  have hne : N.dir (h, n) ≠ [] := by
    rw [← List.length_pos_iff, Names.length_dir hn]
    omega
  rw [ofBucket, rdropWhile_dir hn, if_neg hne]
  refine .bind (access_alone hw _) rfl ?_
  rw [hbucket]
  cases hdir : d.bucket (h, n) with
  | none =>
      have htext : errSys (lit "access " ++ N.dir (h, n)) .noent = .runtimeError
          (lit "access " ++ N.dir (h, n) ++ lit " error: No such file or directory\n") := by
        rw [errSys, List.append_assoc _ (lit " error: "), List.append_assoc]
        rfl
      refine ⟨_, w.sys, rfl, ?_, hs⟩
      dsimp only
      rw [htext]
      exact .error _
  | some dir =>
      refine .bind_left (accessKey_alone hw _) ?_
      rw [hbucket, hdir, Option.bind_some]
      dsimp only
      cases hkey : dir.key with
      | none => exact ⟨_, w.sys, rfl, .error _, hs⟩
      | some key =>
          have hlock : N.dir (h, n) ++ lit ".lock" = N.lock (h, n) := rfl
          rw [hlock]
          dsimp only
          cases hd : d.lockFile (h, n) with
          | true =>
              rw [hd, if_pos rfl] at hlockFile
              rw [Simulates, BigHash.bind_error (lock_again rfl hd)]
              have hown := stmt_error (getLockfile_own hw hlockFile block fuel) .lock
                (N.lock (h, n))
              exact ⟨_, w.sys, Prog.bind_error hown, .error ⟨.lock, N.lock (h, n), _⟩, hs⟩
          | false =>
              rw [hd, if_neg (by simp)] at hlockFile
              have hfree := stmt_ok (getLockfile_free hw hlockFile block fuel) .lock (N.lock (h, n))
              refine .bind hfree (lock_ok rfl hd) ?_
              refine .bind_left (readKey_alone (hw.withSys _) _) ?_
              have hdirs : (w.withSys (w.sys.setLock (N.lock (h, n)) (some (some pid)))).sys.dirs
                (N.dir (h, n)) = d.bucket (h, n) := hbucket
              rw [hdirs, hdir, Option.bind_some, hkey]
              exact ⟨_, _, rfl, .ok key n, hs.setLock hn true⟩

end

/-! ### Programs -/

/-- How a program opens a bucket: by its key, or by its directory with slashes behind it. -/
inductive Opening where
  | key (k : Str)
  | bucket (h : Sha1) (n : Fin maxBuckets) (slashes : ℕ) (block : Bool)

/-- The constructor that is called. -/
def Opening.constructor (rootDir : Str) : Opening → Constructor
  | .key k => .ofKey rootDir k
  | .bucket h n slashes block =>
      .ofBucket ((Names.root rootDir).dir (h, n) ++ List.replicate slashes Byte.slash) block

/-- The member `block` that the constructor sets. -/
def Opening.block : Opening → Bool
  | .key _ => true
  | .bucket _ _ _ block => block

/-- `big_hash_bucket` on the files below a root directory. -/
def files (pid : Pid) (sha1 : Str → Sha1) (fuel : ℕ) (rootDir : Str) :
    Class (World pid) Object Opening (Member × Choice) Answer where
  new o w := ((o.constructor rootDir).run (fun k => (sha1 k).1) fuel w).map fun r =>
    ((r.1.map (·.object o.block)).mapError fun x => .threw x.exn, r.2)
  call b m w := b.perform fuel m.2 m.1 w
  delete b w := (b.unlock w).map fun r =>
    (match r.1 with
      | .ok _ => .done
      | .error e => .threw e, r.2)

/-- The constructor on the table. -/
def Opening.onTable (sha1 : Str → Sha1) (rootDir : Str) : Opening → DiskM Sha1 (BigHashBucket Sha1)
  | .key k => BigHashBucket.construct sha1 k
  | .bucket h n _ _ => BigHashBucket.attach (Names.root rootDir).dir (h, n)

/-- The same on the table of buckets. -/
def table (sha1 : Str → Sha1) (rootDir : Str) :
    Class (Disk Sha1) (BigHashBucket Sha1) Opening (Member × Choice) Answer where
  new o d := some ((o.onTable sha1 rootDir d).1.mapError .threw, (o.onTable sha1 rootDir d).2)
  call b m d := some (BigHash.perform b m.1 d)
  delete b d := some
    (match (b.unlock d).1 with
      | .ok _ => .done
      | .error e => .threw e, (b.unlock d).2)

section

variable {sha1 : Str → Sha1} {rootDir : Str} {fuel : ℕ}

/-- A constructor makes the same bucket. -/
lemma made_of_simulates {h : Sha1} {N : Names Sha1} {x : Prog Failure (World pid) Opened}
    {y : DiskM Sha1 (BigHashBucket Sha1)} {w : World pid} {d : Disk Sha1} (hw : Faultless w)
    (hxy : Simulates N h x y w d) (block : Bool)
    (hlt : ∀ b d', y d = (.ok b, d') → b.bucketDir.2 < maxBuckets) :
    Option.Rel (fun x y => Class.Made (Refers N) x.1 y.1 ∧ Match N x.2 y.2)
      ((x w).map fun r => ((r.1.map (·.object block)).mapError fun x => Answer.threw x.exn, r.2))
      (some ((y d).1.mapError .threw, (y d).2)) := by
  obtain ⟨r, s, hx, hanswers, hs⟩ := hxy
  rw [hx]
  generalize hy : y d = z at hanswers hs
  obtain ⟨z, d'⟩ := z
  refine .some ⟨?_, hw.withSys s, hs⟩
  cases hanswers with
  | error x => exact .error _
  | ok key n =>
      have hn : n < maxBuckets := hlt _ d' hy
      refine .ok _ _ ⟨rfl, rfl, rfl, rfl, fun p hp => ?_, hn⟩
      obtain rfl : (h, n) = p := Option.some.inj hp
      exact hn

/-- The functions of the class do the same on the files and on the table. -/
lemma files_simulates : Class.Simulates (files pid sha1 (fuel + 1) rootDir) (table sha1 rootDir)
    (Match (.root rootDir)) (Refers (.root rootDir)) where
  new o w d hw := by
    cases o with
    | key k =>
        refine made_of_simulates hw.1 (ofKey_refines hw.1 hw.2) true fun b d' hb => ?_
        have hmem := (open_probe hb).2
        rw [List.mem_range'_1] at hmem
        omega
    | bucket h n slashes block =>
        refine made_of_simulates hw.1 (ofBucket_simulates hw.1 hw.2 n.2 fuel slashes block) block
          fun b d' hb => ?_
        rw [(open_attach hb).2]
        exact n.2
  call b b' m w d hb hw := perform_mirrors hw hb fuel m.2 m.1
  delete b b' w d hb hw := by
    obtain ⟨hw, hs⟩ := hw
    simp only [files, table]
    rcases (unlock_mirrors hw hs hb).elim with
      ⟨b₁, b₂, s, d', hx, hy, hb₁, hs'⟩ | ⟨e, s, d', hx, hy, hs'⟩
    · rw [hx, hy]
      exact .some ⟨rfl, hw.withSys s, hs'⟩
    · rw [hx, hy]
      exact .some ⟨rfl, hw.withSys s, hs'⟩

/-- A program on the files gets the same answers as on the table, and leaves the files as the table
is, when no call fails and no other process is about. -/
theorem files_runs {w : World pid} {d : Disk Sha1} (hw : Faultless w)
    (hs : Agrees pid (.root rootDir) d w.sys)
    (actions : List (Class.Action Opening (Member × Choice))) :
    Option.Rel (fun x y => x.1 = y.1 ∧ Agrees pid (.root rootDir) y.2.state x.2.state.sys)
      ((files pid sha1 (fuel + 1) rootDir).machine.runs { state := w } actions)
      ((table sha1 rootDir).machine.runs { state := d } actions) := by
  have hstart : Class.Related (Match (.root rootDir)) (Refers (.root rootDir))
    ({ state := w } : Class.Heap (World pid) Object) { state := d } := Class.related_new ⟨hw, hs⟩
  exact rel_mono (files_simulates.runs hstart actions) fun x y hxy => ⟨hxy.1, hxy.2.state.2⟩

end

/-- The hash value of forty zeros. -/
def zeros : Sha1 := ⟨lit "0000000000000000000000000000000000000000", by decide⟩

/-- No directories and no lock files, and no other processes. -/
def World.empty : World 7 where
  sys :=
    { dirs := fun _ => none
      locks := fun _ => none
      running := fun _ => false }
  faults _ := none
  sleeps _ := { act := id, honest := fun _ _ h => h }

/-- Two keys with one hash value, and the bucket of the first one opened by its directory. -/
def twoKeys : List (Class.Action Opening (Member × Choice)) :=
  [.new (.key (lit "a")), .call 0 (.call (.set (lit "12")), { sizes := [0] }),
    .new (.key (lit "b")), .delete 0, .new (.key (lit "b")), .call 1 (.call .erase, {}),
    .new (.bucket zeros ⟨0, by decide⟩ 1 true), .call 2 (.call .get, {})]

/-- The second key cannot be opened while the first one is open. -/
theorem files_runs_two : ∃ x, (files 7 (fun _ => zeros) 1 (lit "r")).machine.runs
      { state := World.empty } twoKeys = some x ∧
    x.1.map Prod.snd = [none, some .done, some (.threw (.runtimeError (lit "prevent deadlock"))),
      some .done, none, some .done, none, some (.value (lit "12"))] := by
  have hruns : Option.Rel _
      ((files 7 (fun _ => zeros) (0 + 1) (lit "r")).machine.runs _ twoKeys) _ :=
    files_runs (w := World.empty) (d := Disk.new Sha1) rfl (fun _ _ => ⟨rfl, rfl⟩) twoKeys
  have htable : ((table (fun _ => zeros) (lit "r")).machine.runs { state := Disk.new Sha1 }
      twoKeys).map (·.1.map Prod.snd) = some [none, some .done,
        some (.threw (.runtimeError (lit "prevent deadlock"))), some .done, none, some .done, none,
        some (.value (lit "12"))] := by decide
  obtain ⟨y, hy, hanswers⟩ := Option.map_eq_some_iff.1 htable
  rw [hy] at hruns
  generalize Machine.runs _ _ twoKeys = x at hruns ⊢
  cases hruns with
  | some hxy => exact ⟨_, rfl, by rw [hxy.1, hanswers]⟩

end BucketOpen

end Mycelium
