import Mycelium.Common.Bytes

/-!
# Pickles

`cPickle`, as far as the programs depend on it.  The pipe of `forkfun` passes one pickle at a time
to `loads`, and `DiskFifo` loads one after another from a file; what each of them needs besides is
said where it is needed.
-/

namespace Mycelium

/-- What `cPickle` raises when it loads. -/
inductive LoadError where
  | eof
  | unpickling
deriving DecidableEq, Repr

/-- `cPickle` for the values of a program; `load` tells how many bytes it has read. -/
structure Pickle (α : Type) where
  dump : α → Str
  load : Str → Except LoadError (α × ℕ)
  load_dump : ∀ x, load (dump x) = .ok (x, (dump x).length)

namespace Pickle

variable {α : Type}

/-- `cPickle.loads`, which gives `none` when it raises. -/
def loads (p : Pickle α) (s : Str) : Option α := (p.load s).toOption.map Prod.fst

lemma loads_dump (p : Pickle α) (x : α) : p.loads (p.dump x) = some x := by
  rw [loads, p.load_dump]
  rfl

end Pickle

end Mycelium
