import Mycelium.Common.FaultyCalls

/-!
# Lock files that are left behind

The destructor does not run for an object whose constructor throws, so that an exception which
leaves a constructor of `big_hash_bucket` after the lock file was taken leaves the lock file, with
the pid of a process that has no bucket.  When this happens is said in terms of the system before
the call: what is there, which of the calls fail and what the other processes do.
-/

namespace Mycelium

open Lib BigHash BucketLock

namespace BucketOpen

variable {pid : Pid} {ε α : Type} {w w' : World pid} {f dir key : Str} {block : Bool} {n : ℕ}

/-! ### When a lock file is left -/

/-- What fails in the loop of the constructor of a key once the lock file of a bucket was taken. -/
inductive FailsHolding (dir key : Str) (w : World pid) : Prop
  /-- `access`, and not because there is no directory. -/
  | access {e : Errno} : w.faults 0 = some e → e ≠ .noent → FailsHolding dir key w
  /-- `unlink`, when the bucket has another key. -/
  | unlink {k : Str} : Accessible dir w → ReadsKey dir k (w.after 1) → k ≠ key →
      w.faults (2 + readCalls k) ≠ none → FailsHolding dir key w
  /-- `write_key`, when the key cannot be read. -/
  | rewrite {m : ℕ} : Accessible dir w → FailsToRead dir (w.after 1) m →
      ¬WritesKey dir key (w.after (1 + m)) → FailsHolding dir key w
  /-- A call of `mkdir`, when there is no directory. -/
  | mkdir {i : ℕ} {e : Errno} : Missing dir w → (w.faults 1 = none → w.sys.dirs dir = none) →
      i < (beginnings dir).length → w.faults (2 + i) = some e → e ≠ .exist → FailsHolding dir key w
  /-- `write_key` in the new directory. -/
  | write {w' : World pid} : Missing dir w → Creates dir (w.after 1) w' → ¬WritesKey dir key w' →
      FailsHolding dir key w

/-- The directory of a bucket. -/
def bucketName (base : Str) (n : ℕ) : Str := base ++ lit "-" ++ lit (toString n)

/-- The lock file of a bucket. -/
def lockName (base : Str) (n : ℕ) : Str := bucketName base n ++ lit ".lock"

/-- The loop of the constructor of a key leaves a lock file that did not have the pid before. -/
inductive Stranded (l₀ : Locks) (fuel : ℕ) (base key : Str) : List ℕ → World pid → Prop
  /-- `ftruncate` fails. -/
  | tears {n : ℕ} {ns : List ℕ} {w : World pid} : Tears true (lockName base n) fuel w →
      ¬Owns pid l₀ (lockName base n) → Stranded l₀ fuel base key (n :: ns) w
  /-- Something fails once the lock file was taken. -/
  | fails {n : ℕ} {ns : List ℕ} {w w' : World pid} : Takes true (lockName base n) fuel w w' →
      FailsHolding (bucketName base n) key w' → ¬Owns pid l₀ (lockName base n) →
      Stranded l₀ fuel base key (n :: ns) w
  /-- The bucket has another key, and the lock file is given back. -/
  | next {n : ℕ} {ns : List ℕ} {w w' : World pid} {k : Str} :
      Takes true (lockName base n) fuel w w' → Accessible (bucketName base n) w' →
      ReadsKey (bucketName base n) k (w'.after 1) → k ≠ key → w'.faults (2 + readCalls k) = none →
      Stranded l₀ fuel base key ns
        ((w'.after (3 + readCalls k)).withSys (w'.sys.setLock (lockName base n) none)) →
      Stranded l₀ fuel base key (n :: ns) w

/-- The constructor leaves a lock file that did not have the pid before. -/
def Constructor.Strands (sha1 : Str → Str) (fuel : ℕ) (w : World pid) : Constructor → Prop
  | .ofKey rootDir key =>
      let toplevel := slash rootDir ((sha1 key).take 2)
      ∃ w', Creates toplevel w w' ∧ Stranded w.sys.locks fuel
        (slash toplevel ((sha1 key).drop 2)) key (List.range' 0 maxBuckets) w'
  | .ofBucket bucket block =>
      let dir := bucket.rdropWhile (· == Byte.slash)
      let f := dir ++ lit ".lock"
      dir ≠ [] ∧ Accessible dir w ∧ w.faults 1 = none ∧ (w.sys.dirs dir).bind (·.key) ≠ none ∧
        ¬Owns pid w.sys.locks f ∧
        (Tears block f fuel (w.after 2) ∨
          ∃ w' m, Takes block f fuel (w.after 2) w' ∧ FailsToRead dir w' m)

/-! ### `get_lockfile` -/

variable {l₀ : Locks}

/-- Without a pid that was written, `get_lockfile` has thrown and taken nothing. -/
def ThrowsClean (l₀ : Locks) (w : World pid) (r : Except Exn Unit) (w' : World pid) : Prop :=
  (∃ e, r = .error e) ∧ (Clean pid l₀ w.sys.locks → Clean pid l₀ w'.sys.locks)

lemma throwsClean_of_eq {x : Option (Except Exn Unit × World pid)} {e : Exn} {v : World pid}
    {r : Except Exn Unit} (hx : x = some (.error e, v)) (hsys : v.sys = w.sys)
    (h : x = some (r, w')) : ThrowsClean l₀ w r w' := by
  obtain ⟨rfl, rfl⟩ := Prod.mk.inj (Option.some.inj (hx.symm.trans h))
  exact ⟨⟨e, rfl⟩, fun hw => by rwa [hsys]⟩

/-- The turn of `get_lockfile` with the pid of another process: it writes its own, it throws, or it
sleeps and begins again. -/
lemma getLockfile_other_cases {p : Pid} {r : Except Exn Unit} (hfinds : FindsLock f w)
    (h1 : w.faults 1 = none) (hlock : w.sys.locks f = some (some p)) (h2 : w.faults 2 = none)
    (hp : p ≠ pid) (h : getLockfile block f (n + 1) w = some (r, w')) :
    ThrowsClean l₀ w r w' ∨
      (w.faults 3 = none ∧ w.sys.running p = false ∧ writePid f (w.after 4) = some (r, w')) ∨
      (w.faults 3 = none ∧ w.sys.running p = true ∧ block = true ∧ w.faults 4 = none ∧
        getLockfile block f n (w.after 5).slept = some (r, w')) := by
  by_cases h3 : w.faults 3 = none
  · rw [getLockfile_other hfinds h1 hlock h2 hp h3] at h
    cases hrunning : w.sys.running p with
    | false =>
        rw [if_pos hrunning] at h
        exact Or.inr (Or.inl ⟨h3, rfl, h⟩)
    | true =>
        rw [if_neg (by simp [hrunning])] at h
        cases block with
        | false => exact Or.inl (throwsClean_of_eq (v := w.after 4) rfl rfl h)
        | true =>
            rw [if_neg (by simp)] at h
            by_cases h4 : w.faults 4 = none
            · rw [Prog.bind_ok (sleep_run (by simpa using h4))] at h
              exact Or.inr (Or.inr ⟨h3, rfl, rfl, h4, by simpa using h⟩)
            · obtain ⟨e, he⟩ := sleep_throws (w := w.after 4) (by simpa using h4)
              exact Or.inl (throwsClean_of_eq (Prog.bind_error he) rfl h)
  · have hread : readLock f (w.after 1) = some (.ok (some p), w.after 3) := by
      have hrun := readLock_run (w := w.after 1) (f := f) (by simpa using h1) hlock
      simpa [h2] using hrun
    rw [getLockfile_finds hfinds hread] at h
    simp only [if_neg hp] at h
    obtain ⟨e, he⟩ := runningPid_throws (w := w.after 3) (p := p) (by simpa using h3)
    exact Or.inl (throwsClean_of_eq (Prog.bind_error he) rfl h)

/-- `get_lockfile` has come to write the pid, or it has thrown and taken nothing. -/
lemma comesToWrite_or_throws (l₀ : Locks) {r : Except Exn Unit}
    (h : getLockfile block f n w = some (r, w')) :
    (∃ w₁, ComesToWrite block f n w w₁ ∧ writePid f w₁ = some (r, w')) ∨
      ThrowsClean l₀ w r w' := by
  induction n generalizing w with
  | zero => simp [getLockfile, Prog.hang] at h
  | succ n ih =>
      by_cases hfinds : FindsLock f w
      · by_cases hopen : w.faults 1 = none → w.sys.locks f = none
        · obtain ⟨e, he⟩ := readLock_throws (w := w.after 1) (f := f) (by simpa using hopen)
          have hrun : getLockfile block f (n + 1) w = some (.error e, (w.after 1).after 1) := by
            rw [getLockfile, Prog.bind_ok (openExcl_finds hfinds)]
            exact Prog.bind_error he
          exact Or.inr (throwsClean_of_eq hrun rfl h)
        · push Not at hopen
          obtain ⟨h1, hlock⟩ := hopen
          obtain ⟨content, hlock⟩ := Option.ne_none_iff_exists'.1 hlock
          by_cases hnone : w.faults 2 = none → content = none
          · have hcomes : ComesToWrite block f (n + 1) w (w.after 3) :=
              .unread hfinds h1 hlock hnone
            exact Or.inl ⟨_, hcomes, hcomes.run ▸ h⟩
          · push Not at hnone
            obtain ⟨h2, hcontent⟩ := hnone
            obtain ⟨p, rfl⟩ := Option.ne_none_iff_exists'.1 hcontent
            by_cases hp : p = pid
            · have hread := readLock_run (w := w.after 1) (f := f) (by simpa using h1) hlock
              rw [if_pos (by simpa using h2)] at hread
              rw [getLockfile_finds hfinds hread] at h
              simp only [if_pos hp] at h
              exact Or.inr (throwsClean_of_eq (v := (w.after 1).after 2) rfl rfl h)
            · rcases getLockfile_other_cases hfinds h1 hlock h2 hp h with
                hthrows | ⟨h3, hrunning, hwrite⟩ | ⟨h3, hrunning, hblock, h4, hagain⟩
              · exact Or.inr hthrows
              · exact Or.inl ⟨_, .stale hfinds h1 hlock h2 hp h3 hrunning, hwrite⟩
              · rcases ih hagain with ⟨w₁, hcomes, hwrite⟩ | ⟨he, hclean⟩
                · exact Or.inl
                    ⟨w₁, .slept hfinds h1 hlock h2 hp h3 hrunning hblock h4 hcomes, hwrite⟩
                · exact Or.inr ⟨he, fun hw => hclean (clean_slept hw)⟩
      · cases h0 : w.faults 0 with
        | none =>
            have hlock : w.sys.locks f = none := by
              by_contra hne
              exact hfinds (Or.inr ⟨h0, hne⟩)
            have hcomes : ComesToWrite block f (n + 1) w _ := .new h0 hlock
            exact Or.inl ⟨_, hcomes, hcomes.run ▸ h⟩
        | some e =>
            have hrun := openExcl_fails (ε := Exn) (f := f) h0
            cases e with
            | exist => exact absurd (Or.inl h0) hfinds
            | _ =>
                rw [getLockfile, Prog.bind_ok hrun] at h
                exact Or.inr (throwsClean_of_eq (v := w.after 1) rfl rfl h)

lemma ComesToWrite.clean {w₁ : World pid} (h : ComesToWrite block f n w w₁)
    (hw : Clean pid l₀ w.sys.locks) : Clean pid l₀ w₁.sys.locks := by
  induction h with
  | new h0 hnone =>
      intro g hown
      have hne : g ≠ f := by
        rintro rfl
        simp [Owns, System.setLock] at hown
      exact hw g (by simpa [Owns, System.setLock, hne] using hown)
  | unread => exact hw
  | stale => exact hw
  | slept _ _ _ _ _ _ _ _ _ _ ih => exact ih (clean_slept hw)

lemma Clean.refl (pid : Pid) (locks : Locks) : Clean pid locks locks := fun _ h => h

/-- A lock file that was taken is a new one, or had the pid before. -/
lemma Holds.not_clean_iff {locks : Locks} (h : Holds pid l₀ f locks) :
    ¬Clean pid l₀ locks ↔ ¬Owns pid l₀ f := by
  refine not_congr ⟨fun hclean => hclean f h.1, fun hown g hg => ?_⟩
  by_cases hgf : g = f
  · exact hgf ▸ hown
  · exact h.2 g hgf hg

lemma holds_setLock {s : System} (hs : Clean pid l₀ s.locks) :
    Holds pid l₀ f (s.setLock f (some (some pid))).locks :=
  ⟨by simp [Owns, System.setLock],
    fun g hg hown => hs g (by simpa [Owns, System.setLock, hg] using hown)⟩

lemma clean_setLock {s : System} {p : Pid} (hs : Clean pid l₀ s.locks) (hp : p ≠ pid) :
    Clean pid l₀ (s.setLock f (some (some p))).locks := by
  intro g hown
  have hne : g ≠ f := by
    rintro rfl
    simp [Owns, System.setLock, hp] at hown
  exact hs g (by simpa [Owns, System.setLock, hne] using hown)

lemma Takes.holds (h : Takes block f n w w') (hw : Clean pid l₀ w.sys.locks) :
    Holds pid l₀ f w'.sys.locks := by
  obtain ⟨w₁, hcomes, -, rfl⟩ := h
  exact holds_setLock (hcomes.clean hw)

/-! ### Programs that leave a lock file -/

/-- The program throws and leaves a lock file with the pid that did not have it before. -/
def LeavesLock (l₀ : Locks) (x : Prog ε (World pid) α) (w : World pid) : Prop :=
  ∃ e w', x w = some (.error e, w') ∧ ¬Clean pid l₀ w'.sys.locks

section

variable {β : Type} {x : Prog ε (World pid) α} {k : α → Prog ε (World pid) β} {a : α} {e : ε}

lemma leavesLock_bind_ok (h : x w = some (.ok a, w')) :
    LeavesLock l₀ (x >>= k) w ↔ LeavesLock l₀ (k a) w' := by
  rw [LeavesLock, Prog.bind_ok h]
  rfl

lemma leavesLock_of_error (h : x w = some (.error e, w')) :
    LeavesLock l₀ x w ↔ ¬Clean pid l₀ w'.sys.locks := by
  constructor
  · rintro ⟨e', w₁, hrun, hnew⟩
    obtain ⟨-, rfl⟩ := Prod.mk.inj (Option.some.inj (h.symm.trans hrun))
    exact hnew
  · exact fun hnew => ⟨e, w', h, hnew⟩

lemma leavesLock_throw : LeavesLock l₀ (throw e : Prog ε (World pid) α) w ↔
    ¬Clean pid l₀ w.sys.locks :=
  leavesLock_of_error rfl

lemma not_leavesLock_of_ok (h : x w = some (.ok a, w')) : ¬LeavesLock l₀ x w := by
  rintro ⟨e, w₁, hrun, -⟩
  rw [h] at hrun
  simp at hrun

end

/-- What happens when the lock file of a bucket is to be taken. -/
lemma leavesLock_lock {k : Unit → Prog Failure (World pid) α} (st : Statement)
    (hw : Clean pid l₀ w.sys.locks) :
    LeavesLock l₀ (stmt st f (getLockfile block f n) >>= k) w ↔
      (Tears block f n w ∧ ¬Owns pid l₀ f) ∨
        ∃ w', Takes block f n w w' ∧ LeavesLock l₀ (k ()) w' := by
  constructor
  · intro hleaves
    cases hget : getLockfile block f n w with
    | none =>
        obtain ⟨x, w', hrun, -⟩ := hleaves
        have hhangs : stmt st f (getLockfile block f n) w = none := by
          rw [stmt, Prog.rethrow_apply, hget]
          rfl
        rw [Prog.bind_none hhangs] at hrun
        simp at hrun
    | some result =>
        obtain ⟨r, w₁⟩ := result
        rcases comesToWrite_or_throws l₀ hget with ⟨w₂, hcomes, hwrite⟩ | ⟨⟨e, rfl⟩, hclean⟩
        · have hclean := hcomes.clean hw
          by_cases h2 : w₂.Works 2
          · by_cases h3 : w₂.faults 2 = none
            · have hworks : w₂.Works 3 := h2.succ h3
              obtain ⟨rfl, rfl⟩ := Prod.mk.inj
                (Option.some.inj (hwrite.symm.trans (writePid_works hworks)))
              exact Or.inr ⟨_, ⟨w₂, hcomes, hworks, rfl⟩,
                (leavesLock_bind_ok (stmt_ok hget st f)).1 hleaves⟩
            · obtain ⟨e, he⟩ := writePid_tears (f := f) h2 h3
              obtain ⟨rfl, rfl⟩ := Prod.mk.inj (Option.some.inj (hwrite.symm.trans he))
              have hnew := (leavesLock_of_error (Prog.bind_error (stmt_error hget st f))).1 hleaves
              by_cases hpid : overwritten pid (w₂.sys.locks f).join = pid
              · rw [hpid] at hnew
                exact Or.inl
                  ⟨⟨w₂, hcomes, h2, h3, hpid⟩, (holds_setLock hclean).not_clean_iff.1 hnew⟩
              · exact absurd (clean_setLock hclean hpid) hnew
          · obtain ⟨e, w₃, he, hsys⟩ := writePid_throws (f := f) h2
            obtain ⟨rfl, rfl⟩ := Prod.mk.inj (Option.some.inj (hwrite.symm.trans he))
            have hnew := (leavesLock_of_error (Prog.bind_error (stmt_error hget st f))).1 hleaves
            rw [hsys] at hnew
            exact absurd hclean hnew
        · have hnew := (leavesLock_of_error (Prog.bind_error (stmt_error hget st f))).1 hleaves
          exact absurd (hclean hw) hnew
  · rintro (⟨⟨w₁, hcomes, h2, htears, hpid⟩, hnew⟩ | ⟨w', ⟨w₁, hcomes, h3, rfl⟩, hleaves⟩)
    · obtain ⟨e, he⟩ := writePid_tears (f := f) h2 htears
      rw [← hcomes.run] at he
      rw [hpid] at he
      exact (leavesLock_of_error (Prog.bind_error (stmt_error he st f))).2
        ((holds_setLock (hcomes.clean hw)).not_clean_iff.2 hnew)
    · have hrun := writePid_works (f := f) h3
      rw [← hcomes.run] at hrun
      exact (leavesLock_bind_ok (stmt_ok hrun st f)).2 hleaves

/-- A call that leaves the lock files alone. -/
lemma Calm.locks_eq {x : Prog Exn (World pid) α} (hx : Calm x) {r : Except Exn α}
    (h : x w = some (r, w')) : w'.sys.locks = w.sys.locks := by
  have htriple := hx (· = w.sys.locks) w w' rfl
  cases r with
  | ok a => exact htriple.1 a h
  | error e => exact htriple.2 e h

/-! ### The constructors -/

/-- The body of the loop of the constructor of a key, once the lock file was taken. -/
def tryBucket (fuel : ℕ) (base key : Str) (n : ℕ) (ns : List ℕ) :
    Prog Failure (World pid) Opened := do
  match ← access (bucketName base n) with
  | none =>
      match ← readKey (bucketName base n) with
      | some k =>
          if k = key then return ⟨lockName base n, key, bucketName base n⟩
          else do
            stmt .unlock (lockName base n) (unlock (lockName base n))
            probe fuel base key ns
      | none => do
          stmt .writeKey (lockName base n) (writeKey (bucketName base n) key)
          return ⟨lockName base n, key, bucketName base n⟩
  | some .noent => do
      stmt .createBucket (lockName base n) (createDirectories (bucketName base n))
      stmt .writeKey (lockName base n) (writeKey (bucketName base n) key)
      return ⟨lockName base n, key, bucketName base n⟩
  | some _ =>
      throw ⟨.cantAccess, lockName base n,
        .runtimeError (lit "can't access: " ++ bucketName base n)⟩

lemma probe_cons (fuel : ℕ) (base key : Str) (n : ℕ) (ns : List ℕ) :
    (probe fuel base key (n :: ns) : Prog Failure (World pid) Opened) =
      stmt .lock (lockName base n) (getLockfile true (lockName base n) fuel) >>=
        fun _ => tryBucket fuel base key n ns := rfl

section

variable {base : Str} {fuel m : ℕ} {ns : List ℕ}

/-- A `write_key` at the end. -/
lemma leavesLock_writeKey {o : Opened} (hheld : Holds pid l₀ f w.sys.locks) :
    LeavesLock l₀ (stmt .writeKey f (writeKey dir key) >>= fun _ => pure o) w ↔
      ¬WritesKey dir key w ∧ ¬Owns pid l₀ f := by
  by_cases hwrites : WritesKey dir key w
  · obtain ⟨w', hrun⟩ := writeKey_works hwrites
    rw [leavesLock_bind_ok (stmt_ok hrun .writeKey f)]
    exact iff_of_false (not_leavesLock_of_ok rfl) fun h => h.1 hwrites
  · obtain ⟨e, w', hrun⟩ := writeKey_fails hwrites
    rw [leavesLock_of_error (Prog.bind_error (stmt_error hrun .writeKey f)),
      (writeKey_calm dir key).locks_eq hrun, hheld.not_clean_iff]
    exact ⟨fun hnew => ⟨hwrites, hnew⟩, fun h => h.2⟩

/-- A bucket with another key: `unlink` fails, or the loop goes on. -/
lemma leavesLock_unlock {k : Str} (hheld : Holds pid l₀ f w.sys.locks) :
    LeavesLock l₀ (stmt .unlock f (unlock f) >>= fun _ => probe fuel base key ns)
        (w.after (2 + readCalls k)) ↔
      (w.faults (2 + readCalls k) ≠ none ∧ ¬Owns pid l₀ f) ∨
        (w.faults (2 + readCalls k) = none ∧ LeavesLock l₀ (probe fuel base key ns)
          ((w.after (3 + readCalls k)).withSys (w.sys.setLock f none))) := by
  by_cases hfault : w.faults (2 + readCalls k) = none
  · have hrun := unlock_works (w := w.after (2 + readCalls k)) (f := f) (by simpa using hfault)
      hheld.1
    have hcalls : 1 + (2 + readCalls k) = 3 + readCalls k := by omega
    rw [leavesLock_bind_ok (stmt_ok hrun .unlock f), after_after, hcalls]
    simp [hfault]
  · obtain ⟨e, hrun⟩ := unlock_fails (w := w.after (2 + readCalls k)) (f := f)
      (by simpa using hfault)
    rw [leavesLock_of_error (Prog.bind_error (stmt_error hrun .unlock f)), sys_after, sys_after,
      hheld.not_clean_iff]
    simp [hfault]

lemma FailsHolding.leavesLock (h : FailsHolding (bucketName base n) key w)
    (hheld : Holds pid l₀ (lockName base n) w.sys.locks) (hnew : ¬Owns pid l₀ (lockName base n)) :
    LeavesLock l₀ (tryBucket fuel base key n ns) w := by
  have hunclean := hheld.not_clean_iff.2 hnew
  rw [tryBucket]
  cases h with
  | @access e h0 he =>
      rw [leavesLock_bind_ok (access_fails h0)]
      cases e with
      | noent => exact absurd rfl he
      | exist => exact leavesLock_throw.2 hunclean
      | other message => exact leavesLock_throw.2 hunclean
  | @unlink k hthere hreads hk hfault =>
      refine (leavesLock_bind_ok (access_there hthere)).2
        ((leavesLock_bind_ok (readKey_reads hreads)).2 ?_)
      simp only [if_neg hk]
      rw [after_after]
      have hcalls : 1 + readCalls k + 1 = 2 + readCalls k := by omega
      rw [hcalls]
      exact (leavesLock_unlock hheld).2 (Or.inl ⟨hfault, hnew⟩)
  | @rewrite m hthere hfails hwrite =>
      refine (leavesLock_bind_ok (access_there hthere)).2
        ((leavesLock_bind_ok (readKey_fails hfails)).2 ?_)
      rw [after_after, Nat.add_comm]
      exact (leavesLock_writeKey (w := w.after (1 + m)) hheld).2 ⟨hwrite, hnew⟩
  | @mkdir i e hmissing hnot hi hfault he =>
      obtain ⟨e', w', hrun⟩ := createDirectories_fails (w := w.after 1) hnot hi
        (by simpa [Nat.add_comm, Nat.add_assoc, Nat.add_left_comm] using hfault) he
      refine (leavesLock_bind_ok (access_missing hmissing)).2 ?_
      refine (leavesLock_of_error (Prog.bind_error (stmt_error hrun _ _))).2 ?_
      rwa [(createDirectories_calm _).locks_eq hrun]
  | @write w' hmissing hcreates hwrite =>
      refine (leavesLock_bind_ok (access_missing hmissing)).2
        ((leavesLock_bind_ok (stmt_ok hcreates.run _ _)).2 ?_)
      have hlocks := (createDirectories_calm _).locks_eq hcreates.run
      exact (leavesLock_writeKey (by rwa [hlocks])).2 ⟨hwrite, hnew⟩

/-- The body of the loop, from the lock file that it holds. -/
lemma leavesLock_tryBucket_iff (hheld : Holds pid l₀ (lockName base n) w.sys.locks) :
    LeavesLock l₀ (tryBucket fuel base key n ns) w ↔
      (FailsHolding (bucketName base n) key w ∧ ¬Owns pid l₀ (lockName base n)) ∨
        ∃ k, Accessible (bucketName base n) w ∧ ReadsKey (bucketName base n) k (w.after 1) ∧
          k ≠ key ∧ w.faults (2 + readCalls k) = none ∧ LeavesLock l₀ (probe fuel base key ns)
            ((w.after (3 + readCalls k)).withSys (w.sys.setLock (lockName base n) none)) := by
  constructor
  · intro hleaves
    rw [tryBucket] at hleaves
    rcases access_cases (bucketName base n) w with hthere | hmissing | ⟨e, h0, he⟩
    · replace hleaves := (leavesLock_bind_ok (access_there hthere)).1 hleaves
      rcases readsKey_or_fails (bucketName base n) (w.after 1) with ⟨k, hreads⟩ | ⟨m, hfails⟩
      · replace hleaves := (leavesLock_bind_ok (readKey_reads hreads)).1 hleaves
        by_cases hk : k = key
        · simp only [if_pos hk] at hleaves
          exact absurd hleaves (not_leavesLock_of_ok rfl)
        · have hcalls : 1 + readCalls k + 1 = 2 + readCalls k := by omega
          simp only [if_neg hk] at hleaves
          rw [after_after, hcalls, leavesLock_unlock hheld] at hleaves
          rcases hleaves with ⟨hfault, hnew⟩ | ⟨hfault, hrest⟩
          · exact Or.inl ⟨.unlink hthere hreads hk hfault, hnew⟩
          · exact Or.inr ⟨k, hthere, hreads, hk, hfault, hrest⟩
      · replace hleaves := (leavesLock_bind_ok (readKey_fails hfails)).1 hleaves
        rw [after_after, Nat.add_comm] at hleaves
        obtain ⟨hwrite, hnew⟩ := (leavesLock_writeKey (w := w.after (1 + m)) hheld).1 hleaves
        exact Or.inl ⟨.rewrite hthere hfails hwrite, hnew⟩
    · replace hleaves := (leavesLock_bind_ok (access_missing hmissing)).1 hleaves
      rcases creates_or_fails (bucketName base n) (w.after 1) with
        ⟨w', hcreates⟩ | ⟨hnot, i, hi, e, hfault, he⟩
      · have hlocks := (createDirectories_calm _).locks_eq hcreates.run
        replace hleaves := (leavesLock_bind_ok (stmt_ok hcreates.run _ _)).1 hleaves
        obtain ⟨hwrite, hnew⟩ := (leavesLock_writeKey (by rwa [hlocks])).1 hleaves
        exact Or.inl ⟨.write hmissing hcreates hwrite, hnew⟩
      · obtain ⟨e', w', hrun⟩ := createDirectories_fails hnot hi hfault he
        replace hleaves := (leavesLock_of_error (Prog.bind_error (stmt_error hrun _ _))).1 hleaves
        rw [(createDirectories_calm _).locks_eq hrun] at hleaves
        refine Or.inl ⟨.mkdir hmissing hnot hi ?_ he, hheld.not_clean_iff.1 hleaves⟩
        rwa [faults_after, show 1 + i + 1 = 2 + i by omega] at hfault
    · replace hleaves := (leavesLock_bind_ok (access_fails h0)).1 hleaves
      refine Or.inl ⟨.access h0 he, ?_⟩
      cases e with
      | noent => exact absurd rfl he
      | exist => exact hheld.not_clean_iff.1 ((leavesLock_throw (w := w.after 1)).1 hleaves)
      | other message =>
          exact hheld.not_clean_iff.1 ((leavesLock_throw (w := w.after 1)).1 hleaves)
  · rintro (⟨hfails, hnew⟩ | ⟨k, hthere, hreads, hk, hfault, hrest⟩)
    · exact hfails.leavesLock hheld hnew
    · refine (leavesLock_bind_ok (access_there hthere)).2
        ((leavesLock_bind_ok (readKey_reads hreads)).2 ?_)
      have hcalls : 1 + readCalls k + 1 = 2 + readCalls k := by omega
      simp only [if_neg hk]
      rw [after_after, hcalls, leavesLock_unlock hheld]
      exact Or.inr ⟨hfault, hrest⟩

/-- Giving the lock file back leaves the others. -/
lemma Holds.clean_setLock_none {s : System} (h : Holds pid l₀ f s.locks) :
    Clean pid l₀ (s.setLock f none).locks := by
  intro g hown
  have hne : g ≠ f := by
    rintro rfl
    simp [Owns, System.setLock] at hown
  exact h.2 g hne (by simpa [Owns, System.setLock, hne] using hown)

/-- The loop of the constructor of a key, by induction on the buckets that are left. -/
lemma leavesLock_probe_iff (hw : Clean pid l₀ w.sys.locks) :
    LeavesLock l₀ (probe fuel base key ns) w ↔ Stranded l₀ fuel base key ns w := by
  induction ns generalizing w with
  | nil =>
      refine iff_of_false (fun hleaves => ?_) (by rintro ⟨⟩)
      exact leavesLock_throw.1 hleaves hw
  | cons n ns ih =>
      rw [probe_cons, leavesLock_lock .lock hw]
      constructor
      · rintro (⟨htears, hnew⟩ | ⟨w', htakes, hleaves⟩)
        · exact .tears htears hnew
        · have hheld := htakes.holds hw
          rcases (leavesLock_tryBucket_iff hheld).1 hleaves with
            ⟨hfails, hnew⟩ | ⟨k, hthere, hreads, hk, hfault, hrest⟩
          · exact .fails htakes hfails hnew
          · exact .next htakes hthere hreads hk hfault ((ih hheld.clean_setLock_none).1 hrest)
      · intro hstranded
        cases hstranded with
        | tears htears hnew => exact Or.inl ⟨htears, hnew⟩
        | fails htakes hfails hnew =>
            exact Or.inr ⟨_, htakes, hfails.leavesLock (htakes.holds hw) hnew⟩
        | next htakes hthere hreads hk hfault hrest =>
            have hheld := htakes.holds hw
            exact Or.inr ⟨_, htakes, (leavesLock_tryBucket_iff hheld).2
              (Or.inr ⟨_, hthere, hreads, hk, hfault, (ih hheld.clean_setLock_none).2 hrest⟩)⟩

lemma leavesLock_ofKey_iff (sha1 : Str → Str) (fuel : ℕ) (rootDir key : Str) (w : World pid) :
    LeavesLock w.sys.locks (ofKey sha1 fuel rootDir key) w ↔
      Constructor.Strands sha1 fuel w (.ofKey rootDir key) := by
  have hclean := Clean.refl pid w.sys.locks
  constructor
  · intro hleaves
    rcases creates_or_fails (slash rootDir ((sha1 key).take 2)) w with
      ⟨w', hcreates⟩ | ⟨hnot, i, hi, e, hfault, he⟩
    · have hlocks := (createDirectories_calm _).locks_eq hcreates.run
      exact ⟨w', hcreates, (leavesLock_probe_iff (by rwa [hlocks])).1
        ((leavesLock_bind_ok (stmt_ok hcreates.run _ _)).1 hleaves)⟩
    · obtain ⟨e', w', hrun⟩ := createDirectories_fails hnot hi hfault he
      have hnew := (leavesLock_of_error (Prog.bind_error (stmt_error hrun _ _))).1 hleaves
      rw [(createDirectories_calm _).locks_eq hrun] at hnew
      exact absurd hclean hnew
  · rintro ⟨w', hcreates, hstranded⟩
    have hlocks := (createDirectories_calm _).locks_eq hcreates.run
    exact (leavesLock_bind_ok (stmt_ok hcreates.run _ _)).2
      ((leavesLock_probe_iff (by rwa [hlocks])).2 hstranded)

/-- The constructor of a bucket directory, once the directory and the key file were found. -/
def lockBucket (fuel : ℕ) (dir : Str) (block : Bool) : Prog Failure (World pid) Opened := do
  stmt .lock (dir ++ lit ".lock") (getLockfile block (dir ++ lit ".lock") fuel)
  match ← readKey dir with
  | none =>
      throw ⟨.cantReadKey, dir ++ lit ".lock", .runtimeError (lit "can't read key: " ++ dir)⟩
  | some key => return ⟨dir ++ lit ".lock", key, dir⟩

lemma leavesLock_lockBucket_iff (hw : Clean pid l₀ w.sys.locks) :
    LeavesLock l₀ (lockBucket fuel dir block) w ↔
      ¬Owns pid l₀ (dir ++ lit ".lock") ∧ (Tears block (dir ++ lit ".lock") fuel w ∨
        ∃ w' m, Takes block (dir ++ lit ".lock") fuel w w' ∧ FailsToRead dir w' m) := by
  rw [lockBucket, leavesLock_lock .lock hw]
  constructor
  · rintro (⟨htears, hnew⟩ | ⟨w', htakes, hleaves⟩)
    · exact ⟨hnew, Or.inl htears⟩
    · rcases readsKey_or_fails dir w' with ⟨k, hreads⟩ | ⟨m, hfails⟩
      · exact absurd ((leavesLock_bind_ok (readKey_reads hreads)).1 hleaves)
          (not_leavesLock_of_ok rfl)
      · replace hleaves := (leavesLock_bind_ok (readKey_fails hfails)).1 hleaves
        have hunclean := leavesLock_throw.1 hleaves
        exact ⟨(htakes.holds hw).not_clean_iff.1 hunclean, Or.inr ⟨w', m, htakes, hfails⟩⟩
  · rintro ⟨hnew, htears | ⟨w', m, htakes, hfails⟩⟩
    · exact Or.inl ⟨htears, hnew⟩
    · refine Or.inr ⟨w', htakes, (leavesLock_bind_ok (readKey_fails hfails)).2 ?_⟩
      exact leavesLock_throw.2 ((htakes.holds hw).not_clean_iff.2 hnew)

/-- The exceptions before the lock leave nothing. -/
lemma leavesLock_ofBucket_iff_lockBucket (fuel : ℕ) (bucket : Str) (block : Bool) (w : World pid) :
    LeavesLock w.sys.locks (ofBucket fuel bucket block) w ↔
      bucket.rdropWhile (· == Byte.slash) ≠ [] ∧
        Accessible (bucket.rdropWhile (· == Byte.slash)) w ∧ w.faults 1 = none ∧
        (w.sys.dirs (bucket.rdropWhile (· == Byte.slash))).bind (·.key) ≠ none ∧
        LeavesLock w.sys.locks (lockBucket fuel (bucket.rdropWhile (· == Byte.slash)) block)
          (w.after 2) := by
  have hclean := Clean.refl pid w.sys.locks
  rw [ofBucket]
  generalize bucket.rdropWhile (· == Byte.slash) = dir
  by_cases hempty : dir = []
  · refine iff_of_false (fun hleaves => ?_) fun h => h.1 hempty
    simp only [if_pos hempty] at hleaves
    exact leavesLock_throw.1 hleaves hclean
  simp only [if_neg hempty]
  by_cases hthere : Accessible dir w
  · rw [leavesLock_bind_ok (access_there hthere)]
    by_cases hkey : (w.after 1).faults 0 = none ∧ ((w.after 1).sys.dirs dir).bind (·.key) ≠ none
    · have hrun := accessKey_there (ε := Failure) hkey.1 hkey.2
      exact (leavesLock_bind_ok hrun).trans
        ⟨fun hleaves => ⟨hempty, hthere, hkey.1, hkey.2, hleaves⟩, fun h => h.2.2.2.2⟩
    · refine iff_of_false (fun hleaves => ?_) fun h => hkey ⟨h.2.2.1, h.2.2.2.1⟩
      obtain ⟨e, hrun⟩ := accessKey_not_there (ε := Failure) (w := w.after 1) 
        fun h0 => by_contra fun hk => hkey ⟨h0, hk⟩
      exact leavesLock_throw.1 ((leavesLock_bind_ok hrun).1 hleaves) hclean
  · refine iff_of_false (fun hleaves => ?_) fun h => hthere h.2.1
    obtain ⟨e, hrun⟩ := access_not_there (ε := Failure) (w := w) 
      fun h0 => by_contra fun hdir => hthere ⟨h0, hdir⟩
    exact leavesLock_throw.1 ((leavesLock_bind_ok hrun).1 hleaves) hclean

lemma leavesLock_run_iff (sha1 : Str → Str) (fuel : ℕ) (c : Constructor) (w : World pid) :
    LeavesLock w.sys.locks (c.run sha1 fuel) w ↔ c.Strands sha1 fuel w := by
  cases c with
  | ofKey rootDir key => exact leavesLock_ofKey_iff sha1 fuel rootDir key w
  | ofBucket bucket block =>
      rw [Constructor.run, leavesLock_ofBucket_iff_lockBucket,
        leavesLock_lockBucket_iff (w := w.after 2) (Clean.refl pid w.sys.locks)]
      rfl

/-- An exception leaves no lock file with the pid that did not have it before, exactly when nothing
fails between a lock file that is taken and the end of the constructor. -/
theorem constructor_leaves_no_lock_iff (sha1 : Str → Str) (fuel : ℕ) (c : Constructor)
    (w : World pid) :
    (∀ x w', c.run sha1 fuel w = some (.error x, w') →
      ∀ f, Owns pid w'.sys.locks f → Owns pid w.sys.locks f) ↔ ¬c.Strands sha1 fuel w := by
  rw [← leavesLock_run_iff, LeavesLock]
  push Not
  rfl

/-- The key file cannot be opened once the lock file has been taken. -/
theorem not_constructor_leaves_no_lock :
    ∃ x w', (Constructor.ofBucket (lit "b") true).run id 1
        (World.oneBucket fun n => if n = 6 then some (.other (lit "Permission denied")) else none)
          = some (.error x, w') ∧
      x.exn = .runtimeError (lit "can't read key: b") ∧ Owns 7 w'.sys.locks (lit "b.lock") ∧
      ¬Owns 7 (World.oneBucket fun _ => none).sys.locks (lit "b.lock") :=
  ⟨_, _, rfl, rfl, rfl, by simp [Owns, World.oneBucket]⟩

end

end BucketOpen

end Mycelium
