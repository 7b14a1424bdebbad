import Mathlib.Algebra.Order.Group.Nat
import Mycelium.Lib.Machine
import Mycelium.Dist.Pickle

/-!
# The queue on disk

`DiskFifo`: records are appended to a file and read back from it, at two positions that the object
keeps.  The file can be closed and opened again.  The records come back in the order in which they
were appended, and reading goes on after the end has been reached and more has been appended.

The number of records is kept in the object and not in the file, so that `len` counts the records
since the file was last opened.
-/

namespace Mycelium

open Lib

/-! ### The file -/

/-- `cPickle.Pickler` and `cPickle.Unpickler` on a file: `load` finds the end of a record whatever
follows it. -/
structure FilePickle (α : Type) extends Pickle α where
  load_append : ∀ x s, load (dump x ++ s) = .ok (x, (dump x).length)
  load_nil : load [] = .error .eof

/-- `class DiskFifo`, with the contents of its file. -/
structure DiskFifo where
  file : Str := []
  /-- The file has a name, and was opened with the mode `a+b`. -/
  named : Bool
  wpos : ℕ := 0
  rpos : ℕ := 0
  size : ℕ := 0

namespace DiskFifo

variable {α : Type}

/-- `__init__`: a temporary file without a name, or a file with some contents. -/
def init : Option Str → DiskFifo
  | none => { named := false }
  | some file => { file := file, named := true, wpos := file.length }

/-- Writes at a position; a gap before it is filled with zeros. -/
def writeAt (file : Str) (pos : ℕ) (bytes : Str) : Str :=
  (file ++ List.replicate (pos - file.length) 0).take pos ++ bytes ++ file.drop (pos + bytes.length)

def append (p : FilePickle α) (s : DiskFifo) (x : α) : DiskFifo :=
  if s.named then
    -- in append mode a write goes to the end of the file, wherever the position is
    { s with
      file := s.file ++ p.dump x, wpos := (s.file ++ p.dump x).length, size := s.size + 1 }
  else
    { s with
      file := writeAt s.file s.wpos (p.dump x)
      wpos := s.wpos + (p.dump x).length
      size := s.size + 1 }

def extend (p : FilePickle α) (s : DiskFifo) (sequence : List α) : DiskFifo :=
  sequence.foldl (append p) s

/-- What `next` returns or raises. -/
inductive Next (α : Type) where
  | record (x : α)
  | stopIteration
  | unpicklingError
deriving DecidableEq, Repr

def next (p : FilePickle α) (s : DiskFifo) : Next α × DiskFifo :=
  match p.load (s.file.drop s.rpos) with
  | .ok (x, n) => (.record x, { s with rpos := s.rpos + n })
  | .error .eof => (.stopIteration, s)
  | .error .unpickling => (.unpicklingError, s)

/-- `__iter__`. -/
def iter (s : DiskFifo) : DiskFifo := { s with rpos := 0 }

/-- `__len__`. -/
def len (s : DiskFifo) : ℕ := s.size

/-- A number of calls of `next`, up to the first that returns no record. -/
def records (p : FilePickle α) : ℕ → DiskFifo → List α
  | 0, _ => []
  | n + 1, s =>
      match s.next p with
      | (.record x, s) => x :: records p n s
      | _ => []

/-- `list(fifo)`: the records of a full iteration, which are not more than the bytes of the file. -/
def list (p : FilePickle α) (s : DiskFifo) : List α := records p s.file.length s.iter

/-! ### The queue as a machine -/

inductive Op (α : Type) where
  | append (x : α)
  | extend (sequence : List α)
  | next
  | iter
  /-- The file is closed and opened again under its name. -/
  | reopen

/-- What a call returns; only `next` returns something. -/
abbrev Answer (α : Type) := Option (Next α)

def machine (p : FilePickle α) : Machine DiskFifo (Op α) (Answer α) where
  exec s
    | .append x => some (none, s.append p x)
    | .extend sequence => some (none, s.extend p sequence)
    | .next => some (some (s.next p).1, (s.next p).2)
    | .iter => some (none, s.iter)
    | .reopen => if s.named then some (none, init (some s.file)) else none

/-! ### The records that were appended -/

/-- What the calls so far amount to. -/
structure History (α : Type) where
  /-- The records ever appended to the file. -/
  appended : List α := []
  /-- How many of them were returned since the last `iter` or opening. -/
  returned : ℕ := 0
  /-- How many of them were there when the file was last opened. -/
  opened : ℕ := 0

namespace History

/-- The record that is due, if there is one. -/
def due (f : History α) : Option α := f.appended[f.returned]?

def step (f : History α) : Op α → History α
  | .append x => { f with appended := f.appended ++ [x] }
  | .extend sequence => { f with appended := f.appended ++ sequence }
  | .next => if f.due.isSome then { f with returned := f.returned + 1 } else f
  | .iter => { f with returned := 0 }
  | .reopen => { f with returned := 0, opened := f.appended.length }

/-- The history of the calls of a run. -/
def ofRun (l : List (Op α × Answer α)) : History α := l.foldl (fun f x => f.step x.1) {}

end History

/-- The bytes of a list of records. -/
def bytes (p : FilePickle α) (xs : List α) : Str := xs.flatMap p.dump

/-- The file holds the records that were appended, the positions are at the end and behind the
records that were returned, and the size counts the records since the file was opened. -/
structure Inv (p : FilePickle α) (s : DiskFifo) (f : History α) : Prop where
  file : s.file = bytes p f.appended
  wpos : s.wpos = s.file.length
  rpos : s.rpos = (bytes p (f.appended.take f.returned)).length
  returned : f.returned ≤ f.appended.length
  size : f.opened + s.size = f.appended.length

variable {p : FilePickle α} {s : DiskFifo} {f : History α}

lemma bytes_append (xs ys : List α) : bytes p (xs ++ ys) = bytes p xs ++ bytes p ys :=
  List.flatMap_append

lemma dump_ne_nil (p : FilePickle α) (x : α) : p.dump x ≠ [] := by
  intro h
  have hload := p.load_dump x
  rw [h, p.load_nil] at hload
  exact absurd hload (by simp)

/-- A record takes a byte at least. -/
lemma length_le_length_bytes (p : FilePickle α) (xs : List α) :
    xs.length ≤ (bytes p xs).length := by
  induction xs with
  | nil => simp
  | cons x xs ih =>
      have hpos := List.length_pos_iff.2 (dump_ne_nil p x)
      rw [bytes, List.flatMap_cons, List.length_append, List.length_cons]
      rw [bytes] at ih
      omega

lemma writeAt_length (file bytes : Str) : writeAt file file.length bytes = file ++ bytes := by
  simp [writeAt]

/-- A new file, with a name or without. -/
lemma inv_init (named : Bool) : Inv p (init (if named then some [] else none)) {} := by
  cases named <;> exact ⟨rfl, rfl, rfl, le_rfl, rfl⟩

namespace Inv

/-- Both modes write to the end. -/
lemma append_eq (h : Inv p s f) (x : α) : s.append p x = { s with
    file := s.file ++ p.dump x, wpos := (s.file ++ p.dump x).length, size := s.size + 1 } := by
  rw [DiskFifo.append]
  split
  · rfl
  · rw [h.wpos, writeAt_length, List.length_append]

lemma append (h : Inv p s f) (x : α) : Inv p (s.append p x) (f.step (.append x)) := by
  rw [h.append_eq]
  refine ⟨?_, rfl, ?_, ?_, ?_⟩
  · simp [History.step, h.file, bytes]
  · rw [History.step, List.take_append_of_le_length h.returned]
    exact h.rpos
  · simpa [History.step] using Nat.le_succ_of_le h.returned
  · have hsize := h.size
    simp only [History.step, List.length_append, List.length_singleton]
    omega

lemma extend (h : Inv p s f) (sequence : List α) :
    Inv p (s.extend p sequence) (f.step (.extend sequence)) := by
  induction sequence generalizing s f with
  | nil => simpa [DiskFifo.extend, History.step] using h
  | cons x xs ih =>
      have hstep : f.step (.extend (x :: xs)) = (f.step (.append x)).step (.extend xs) := by
        simp [History.step]
      rw [hstep]
      exact ih (h.append x)

/-- What `load` finds at the position of the reader. -/
lemma drop_rpos (h : Inv p s f) : s.file.drop s.rpos = bytes p (f.appended.drop f.returned) := by
  have hsplit := bytes_append (p := p) (f.appended.take f.returned) (f.appended.drop f.returned)
  rw [List.take_append_drop] at hsplit
  rw [h.file, h.rpos, hsplit, List.drop_left]

/-- `next` returns the record that is due, and raises `StopIteration` when there is none. -/
lemma next (h : Inv p s f) :
    (s.next p).1 = f.due.elim .stopIteration .record ∧ Inv p (s.next p).2 (f.step .next) := by
  rw [DiskFifo.next, h.drop_rpos, History.step]
  cases hdue : f.due with
  | none =>
      have hnil : f.appended.drop f.returned = [] := by
        rw [History.due, List.getElem?_eq_none_iff] at hdue
        exact List.drop_eq_nil_of_le hdue
      rw [hnil, bytes, List.flatMap_nil, p.load_nil]
      exact ⟨rfl, h⟩
  | some x =>
      obtain ⟨hlt, hx⟩ := List.getElem?_eq_some_iff.1 hdue
      rw [List.drop_eq_getElem_cons hlt, hx, bytes, List.flatMap_cons, p.load_append]
      refine ⟨rfl, h.file, h.wpos, ?_, hlt, h.size⟩
      simp [h.rpos, List.take_succ_eq_append_getElem hlt, hx, bytes]

lemma iter (h : Inv p s f) : Inv p s.iter (f.step .iter) :=
  ⟨h.file, h.wpos, by simp [DiskFifo.iter, History.step, bytes], Nat.zero_le _, h.size⟩

lemma reopen (h : Inv p s f) : Inv p (init (some s.file)) (f.step .reopen) :=
  ⟨h.file, rfl, by simp [DiskFifo.init, History.step, bytes], Nat.zero_le _, rfl⟩

lemma exec {op : Op α} {a : Answer α} {t : DiskFifo} (h : Inv p s f)
    (he : (machine p).exec s op = some (a, t)) : Inv p t (f.step op) := by
  cases op with
  | append x =>
      obtain ⟨-, rfl⟩ := Prod.mk.inj (Option.some.inj he)
      exact h.append x
  | extend sequence =>
      obtain ⟨-, rfl⟩ := Prod.mk.inj (Option.some.inj he)
      exact h.extend sequence
  | next =>
      obtain ⟨-, rfl⟩ := Prod.mk.inj (Option.some.inj he)
      exact h.next.2
  | iter =>
      obtain ⟨-, rfl⟩ := Prod.mk.inj (Option.some.inj he)
      exact h.iter
  | reopen =>
      simp only [machine, Option.ite_none_right_eq_some] at he
      obtain ⟨-, rfl⟩ := Prod.mk.inj (Option.some.inj he.2)
      exact h.reopen

/-- The records from the one that is due on. -/
lemma records_eq (h : Inv p s f) {n : ℕ} (hn : f.appended.length - f.returned ≤ n) :
    DiskFifo.records p n s = f.appended.drop f.returned := by
  induction n generalizing s f with
  | zero => exact (List.drop_eq_nil_of_le (by omega)).symm
  | succ n ih =>
      obtain ⟨hnext, hinv⟩ := h.next
      rw [DiskFifo.records]
      cases hdue : f.due with
      | none =>
          rw [hdue, Option.elim_none] at hnext
          rw [History.due, List.getElem?_eq_none_iff] at hdue
          rw [List.drop_eq_nil_of_le hdue]
          split
          · next x t ht => exact absurd (hnext.symm.trans (congrArg Prod.fst ht)) (by simp)
          · rfl
      | some x =>
          rw [hdue, Option.elim_some] at hnext
          rw [History.step, hdue, Option.isSome_some, if_pos rfl] at hinv
          obtain ⟨hlt, hx⟩ := List.getElem?_eq_some_iff.1 hdue
          rw [List.drop_eq_getElem_cons hlt, hx]
          split
          · next y t ht =>
              obtain rfl : x = y := by
                simpa using hnext.symm.trans (congrArg Prod.fst ht)
              rw [ht] at hinv
              exact congrArg (x :: ·) (ih hinv (by simpa using by omega))
          · next hother => exact (hother x (s.next p).2 (Prod.ext hnext rfl)).elim

lemma list_eq (h : Inv p s f) : s.list p = f.appended := by
  have hlen := length_le_length_bytes p f.appended
  rw [list, h.iter.records_eq (by rw [h.file]; simpa [History.step] using hlen)]
  rfl

end Inv

/-- In every run on a new file the next call of `next` returns the record that is due or, when all
have been returned, raises `StopIteration`; a full iteration returns what was ever appended; and
`len` is its length exactly when the file was empty when it was last opened. -/
theorem next_eq_due (named : Bool) {l : List (Op α × Answer α)}
    (h : (machine p).Run Machine.Free (init (if named then some [] else none)) l s) :
    (s.next p).1 = (History.ofRun l).due.elim .stopIteration .record ∧
      s.list p = (History.ofRun l).appended ∧
      (s.len = (s.list p).length ↔ (History.ofRun l).opened = 0) := by
  have hinv : Inv p s (History.ofRun l) :=
    h.refinement _ (fun _ _ _ _ _ hR _ he => hR.exec he) (inv_init named)
  refine ⟨hinv.next.1, hinv.list_eq, ?_⟩
  have hsize := hinv.size
  rw [hinv.list_eq, len]
  omega

/-- Records of one byte. -/
def bytePickle : FilePickle UInt8 where
  dump x := [x]
  load
    | [] => .error .eof
    | x :: _ => .ok (x, 1)
  load_dump _ := rfl
  load_append _ _ := rfl
  load_nil := rfl

/-- Two records, a read of each, a read past the end, and a third record. -/
def interleaved : List (Op UInt8 × Answer UInt8) :=
  [(.extend [1, 2], none), (.next, some (.record 1)), (.next, some (.record 2)),
    (.next, some .stopIteration), (.append 3, none)]

theorem next_eq_due_interleaved :
    ∃ s, (machine bytePickle).Run Machine.Free (init none) interleaved s ∧
      (s.next bytePickle).1 = .record 3 ∧ s.list bytePickle = [1, 2, 3] ∧ s.len = 3 := by
  obtain ⟨s, h⟩ : ∃ s, (machine bytePickle).Run Machine.Free (init none) interleaved s :=
    ⟨_, .cons trivial rfl (.cons trivial rfl (.cons trivial rfl (.cons trivial rfl
      (.cons trivial rfl (.nil _)))))⟩
  obtain ⟨hnext, hlist, hlen⟩ := next_eq_due false h
  refine ⟨s, h, hnext, hlist, ?_⟩
  rw [hlen.2 rfl, hlist]
  rfl

/-- A file with a record that is closed and opened again has the length zero. -/
theorem not_len_reopen :
    ∃ s, (machine bytePickle).Run Machine.Free (init (some []))
        [(.append 7, none), (.reopen, none)] s ∧
      s.list bytePickle = [7] ∧ s.len = 0 :=
  ⟨init (some [7]), .cons trivial rfl (.cons trivial rfl (.nil _)), rfl, rfl⟩

end DiskFifo

end Mycelium
