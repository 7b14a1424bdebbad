import Mathlib.Data.List.Infix
import Mathlib.Logic.Function.Basic
import Mycelium.Lib.Machine
import Mycelium.Dist.Pickle

/-!
# The messages of `forkfun` on a pipe

`sendmessage` and `recvmessage` over the pipe from the children to the parent.  A message is its
pickle behind the length of the pickle, written by one `os.write` and read by two `os.read`.  A
write of more than `PIPE_BUF` bytes can arrive in pieces, and a read can return less than it asks
for, which nothing in `recvmessage` makes up for.

As long as no child writes while the message of another one is on the pipe in part, and the reads
are complete, the parent receives the messages in the order in which they were sent.
-/

namespace Mycelium

open Lib

namespace Pipe

/-! ### Frames -/

/-- `struct.calcsize('L')`. -/
def structlen : ℕ := 8

/-- `struct.pack` of an integer of `w` bytes. -/
def pack : ℕ → ℕ → Str
  | 0, _ => []
  | w + 1, n => UInt8.ofNat n :: pack w (n / 256)

/-- `struct.unpack`. -/
def unpack : Str → ℕ
  | [] => 0
  | b :: bs => b.toNat + 256 * unpack bs

/-- `cPickle` for the messages of a program. -/
structure MessagePickle (Msg : Type) extends Pickle Msg where
  /-- A pickle that is cut off has lost its `STOP`. -/
  loads_cut : ∀ m s, s <+: dump m → s ≠ dump m → toPickle.loads s = none
  /-- The length fits into an unsigned long. -/
  length_lt : ∀ m, (dump m).length < 256 ^ structlen

variable {Msg : Type}

/-- What `sendmessage` writes. -/
def MessagePickle.frame (p : MessagePickle Msg) (m : Msg) : Str :=
  pack structlen (p.dump m).length ++ p.dump m

lemma length_pack (w n : ℕ) : (pack w n).length = w := by
  induction w generalizing n with
  | zero => rfl
  | succ w ih => rw [pack, List.length_cons, ih]

lemma unpack_pack {w n : ℕ} (h : n < 256 ^ w) : unpack (pack w n) = n := by
  induction w generalizing n with
  | zero =>
      rw [pow_zero] at h
      rw [pack, unpack]
      omega
  | succ w ih =>
      have hdiv : n / 256 < 256 ^ w := by
        rw [pow_succ] at h
        exact Nat.div_lt_of_lt_mul (by omega)
      rw [pack, unpack, ih hdiv, UInt8.toNat_ofNat']
      omega

/-! ### The pipe and its ends -/

/-- Where the parent is in `recvmessage`. -/
inductive Reader where
  /-- At the read of the length. -/
  | header
  /-- At the read of a pickle. -/
  | body (length : ℕ)
  | raised
deriving DecidableEq, Repr

/-- The pipe to the parent, the parent, and the children with what is left of the message they are
writing. -/
structure State (Msg : Type) where
  bytes : Str := []
  rest : ℕ → Str := fun _ => []
  /-- The messages of the calls of `sendmessage`, as their first bytes came in. -/
  sent : List Msg := []
  reader : Reader := .header
  /-- What `recvmessage` has returned. -/
  received : List Msg := []

/-- What happens next on the pipe. -/
inductive Event (Msg : Type) where
  /-- A child calls `sendmessage`, and the pipe takes the first `k` bytes. -/
  | send (c : ℕ) (m : Msg) (k : ℕ)
  /-- The pipe takes another `k` bytes from the child. -/
  | write (c : ℕ) (k : ℕ)
  /-- The `os.read` of the parent returns `k` bytes. -/
  | read (k : ℕ)

/-- The number of bytes that the parent asks for. -/
def Reader.asks : Reader → ℕ
  | .header => structlen
  | .body length => length
  | .raised => 0

/-- What the parent makes of the bytes of a read. -/
def State.recv (p : MessagePickle Msg) (s : State Msg) (buf : Str) : State Msg :=
  match s.reader with
  | .header =>
      -- `struct.unpack` wants all bytes of the length
      if buf.length = structlen then { s with reader := .body (unpack buf) }
      else { s with reader := .raised }
  | .body _ =>
      match p.loads buf with
      | some m => { s with reader := .header, received := s.received ++ [m] }
      | none => { s with reader := .raised }
  | .raised => s

/-- The pipe takes the first `k` bytes of what a child has to write. -/
def State.put (s : State Msg) (c : ℕ) (buf : Str) (k : ℕ) : State Msg :=
  { s with bytes := s.bytes ++ buf.take k, rest := Function.update s.rest c (buf.drop k) }

/-- `os.read` returns `k` bytes to the parent. -/
def State.read (p : MessagePickle Msg) (s : State Msg) (k : ℕ) : State Msg :=
  { s with bytes := s.bytes.drop k }.recv p (s.bytes.take k)

/-- A pipe of the given capacity. -/
def machine (p : MessagePickle Msg) (pipeBuf capacity : ℕ) :
    Machine (State Msg) (Event Msg) Unit where
  exec s
    | .send c m k =>
        if s.rest c = [] ∧ 1 ≤ k ∧ k ≤ (p.frame m).length ∧ s.bytes.length + k ≤ capacity ∧
            ((p.frame m).length ≤ pipeBuf → k = (p.frame m).length) then
          some ((), { s with sent := s.sent ++ [m] }.put c (p.frame m) k)
        else none
    | .write c k =>
        if 1 ≤ k ∧ k ≤ (s.rest c).length ∧ s.bytes.length + k ≤ capacity then
          some ((), s.put c (s.rest c) k)
        else none
    | .read k =>
        if s.reader ≠ .raised ∧ k ≤ s.reader.asks ∧ k ≤ s.bytes.length ∧
            (1 ≤ k ∨ s.reader.asks = 0) then
          some ((), s.read p k)
        else none

/-- No child writes while another one has written a part of its message, and every read returns
what it asks for. -/
def Undivided (s : State Msg) : Event Msg → Prop
  | .send c _ _ => ∀ d ≠ c, s.rest d = []
  | .write c _ => ∀ d ≠ c, s.rest d = []
  | .read k => k = s.reader.asks

/-- Every message fits into `PIPE_BUF`, and every read returns what it asks for. -/
def Small (p : MessagePickle Msg) (pipeBuf : ℕ) (s : State Msg) : Event Msg → Prop
  | .send _ m _ => (p.frame m).length ≤ pipeBuf
  | .write _ _ => True
  | .read k => k = s.reader.asks

/-- What the parent has received is what was sent: so far, and all of it when nothing is on its
way. -/
structure Intact (s : State Msg) : Prop where
  raised : s.reader ≠ .raised
  received : s.received <+: s.sent
  all : s.bytes = [] → (∀ c, s.rest c = []) → s.reader = .header → s.received = s.sent

/-! ### The bytes on their way -/

section

variable {p : MessagePickle Msg} {pipeBuf capacity : ℕ} {s t : State Msg} {e : Event Msg} {o : Unit}
  {ms : List Msg} {b : Str} {m : Msg}

/-- The bytes that the parent, where it is, expects for the messages. -/
def Expects (p : MessagePickle Msg) : Reader → Str → List Msg → Prop
  | .header, b, ms => b = ms.flatMap p.frame
  | .body n, b, ms => ∃ m ms', ms = m :: ms' ∧ n = (p.dump m).length ∧
      b = p.dump m ++ ms'.flatMap p.frame
  | .raised, _, _ => False

/-- The bytes on the pipe and those that one child has not yet written are the messages that were
not received. -/
def Inv (p : MessagePickle Msg) (s : State Msg) : Prop :=
  ∃ w ms, (∀ c ≠ w, s.rest c = []) ∧ s.sent = s.received ++ ms ∧
    Expects p s.reader (s.bytes ++ s.rest w) ms

lemma Expects.send {r : Reader} (h : Expects p r b ms) (m : Msg) :
    Expects p r (b ++ p.frame m) (ms ++ [m]) := by
  cases r with
  | header =>
      rw [Expects] at h ⊢
      simp [h]
  | body n =>
      obtain ⟨m₁, ms', rfl, hn, rfl⟩ := h
      exact ⟨m₁, ms' ++ [m], rfl, hn, by simp⟩
  | raised => exact h

lemma take_drop_of_append_eq {a b c d : Str} (h : a ++ b = c ++ d) (hle : c.length ≤ a.length) :
    a.take c.length = c ∧ a.drop c.length ++ b = d := by
  constructor
  · rw [← List.take_append_of_le_length hle, h, List.take_left]
  · rw [← List.drop_append_of_le_length hle, h, List.drop_left]

/-- A complete read of the length. -/
lemma Expects.header {b' : Str} (h : Expects p .header (b ++ b') ms) (hb : structlen ≤ b.length) :
    Expects p (.body (unpack (b.take structlen))) (b.drop structlen ++ b') ms := by
  cases ms with
  | nil =>
      have hnil : b ++ b' = [] := h
      rw [(List.append_eq_nil_iff.1 hnil).1] at hb
      exact absurd hb (by simp [structlen])
  | cons m ms =>
      have hsplit : b ++ b' =
          pack structlen (p.dump m).length ++ (p.dump m ++ ms.flatMap p.frame) := by
        rw [← List.append_assoc]
        exact h
      have hlen := length_pack structlen (p.dump m).length
      obtain ⟨htake, hdrop⟩ := take_drop_of_append_eq hsplit (by rwa [hlen])
      rw [hlen] at htake hdrop
      exact ⟨m, ms, rfl, by rw [htake, unpack_pack (p.length_lt m)], hdrop⟩

/-- A complete read of a pickle. -/
lemma Expects.body {n : ℕ} {b' : Str} (h : Expects p (.body n) (b ++ b') ms) (hb : n ≤ b.length) :
    ∃ m ms', ms = m :: ms' ∧ b.take n = p.dump m ∧ Expects p .header (b.drop n ++ b') ms' := by
  obtain ⟨m, ms', rfl, rfl, hsplit⟩ := h
  obtain ⟨htake, hdrop⟩ := take_drop_of_append_eq hsplit hb
  exact ⟨m, ms', rfl, htake, hdrop⟩

/-- What a child writes comes behind the rest. -/
lemma Inv.send {c : ℕ} (h : Inv p s) (hrest : s.rest c = []) (hothers : ∀ d ≠ c, s.rest d = [])
    (m : Msg) (k : ℕ) : Inv p ({ s with sent := s.sent ++ [m] }.put c (p.frame m) k) := by
  obtain ⟨w, ms, -, hsent, hexpects⟩ := h
  have hw : s.rest w = [] := by
    by_cases hwc : w = c
    · rw [hwc, hrest]
    · exact hothers w hwc
  rw [hw, List.append_nil] at hexpects
  refine ⟨c, ms ++ [m], fun d hd => ?_, by simp [State.put, hsent], ?_⟩
  · simp only [State.put, Function.update_of_ne hd]
    exact hothers d hd
  · simp only [State.put, Function.update_self, List.append_assoc, List.take_append_drop]
    exact hexpects.send m

lemma Inv.write {c : ℕ} (h : Inv p s) (hothers : ∀ d ≠ c, s.rest d = []) (hne : s.rest c ≠ [])
    (k : ℕ) : Inv p (s.put c (s.rest c) k) := by
  obtain ⟨w, ms, hw, hsent, hexpects⟩ := h
  obtain rfl : w = c := by
    by_contra hwc
    exact hne (hw c (Ne.symm hwc))
  refine ⟨w, ms, fun d hd => ?_, hsent, ?_⟩
  · simp only [State.put, Function.update_of_ne hd]
    exact hw d hd
  · simpa only [State.put, Function.update_self, List.append_assoc, List.take_append_drop]
      using hexpects

lemma recv_header {buf : Str} (hr : s.reader = .header) (hb : buf.length = structlen) :
    s.recv p buf = { s with reader := .body (unpack buf) } := by
  simp only [State.recv, hr, hb, if_true]

lemma recv_header_short {buf : Str} (hr : s.reader = .header) (hb : buf.length ≠ structlen) :
    s.recv p buf = { s with reader := .raised } := by
  simp only [State.recv, hr, hb, if_false]

lemma recv_body {n : ℕ} {buf : Str} (hr : s.reader = .body n) (hb : p.loads buf = some m) :
    s.recv p buf = { s with reader := .header, received := s.received ++ [m] } := by
  simp only [State.recv, hr, hb]

lemma recv_body_short {n : ℕ} {buf : Str} (hr : s.reader = .body n) (hb : p.loads buf = none) :
    s.recv p buf = { s with reader := .raised } := by
  simp only [State.recv, hr, hb]

lemma rest_read {k : ℕ} : (s.read p k).rest = s.rest ∧ (s.read p k).sent = s.sent := by
  rw [State.read, State.recv]
  split
  · split <;> exact ⟨rfl, rfl⟩
  · split <;> exact ⟨rfl, rfl⟩
  · exact ⟨rfl, rfl⟩

lemma Inv.read (h : Inv p s) (hle : s.reader.asks ≤ s.bytes.length) :
    Inv p (s.read p s.reader.asks) := by
  obtain ⟨w, ms, hw, hsent, hexpects⟩ := h
  rw [State.read]
  cases hr : s.reader with
  | header =>
      rw [hr] at hexpects hle
      have hlen : (s.bytes.take Reader.header.asks).length = structlen := by
        rw [List.length_take]
        exact Nat.min_eq_left hle
      rw [recv_header rfl hlen]
      exact ⟨w, ms, hw, hsent, hexpects.header hle⟩
  | body n =>
      rw [hr] at hexpects hle
      obtain ⟨m, ms', rfl, htake, hexpects'⟩ := hexpects.body hle
      have hloads : p.loads (s.bytes.take (Reader.body n).asks) = some m := by
        rw [← p.loads_dump m, ← htake]
        rfl
      rw [recv_body rfl hloads]
      exact ⟨w, ms', hw, by simp [hsent], hexpects'⟩
  | raised =>
      rw [hr] at hexpects
      exact hexpects.elim

lemma exec_read {k : ℕ} (hr : s.reader ≠ .raised) (hk : 1 ≤ k) (hasks : k ≤ s.reader.asks)
    (hle : k ≤ s.bytes.length) :
    (machine p pipeBuf capacity).exec s (.read k) = some ((), s.read p k) := by
  simp only [machine]
  rw [if_pos ⟨hr, hasks, hle, .inl hk⟩]

lemma Inv.exec (h : Inv p s) (hg : Undivided s e)
    (hexec : (machine p pipeBuf capacity).exec s e = some (o, t)) : Inv p t := by
  cases e with
  | send c m k =>
      obtain ⟨hc, heq⟩ := Option.ite_none_right_eq_some.1 hexec
      obtain ⟨-, rfl⟩ := Prod.mk.inj (Option.some.inj heq)
      exact h.send hc.1 hg m k
  | write c k =>
      obtain ⟨hc, heq⟩ := Option.ite_none_right_eq_some.1 hexec
      obtain ⟨-, rfl⟩ := Prod.mk.inj (Option.some.inj heq)
      refine h.write hg (fun hnil => ?_) k
      rw [hnil, List.length_nil] at hc
      omega
  | read k =>
      obtain ⟨hc, heq⟩ := Option.ite_none_right_eq_some.1 hexec
      obtain ⟨-, rfl⟩ := Prod.mk.inj (Option.some.inj heq)
      obtain rfl : k = s.reader.asks := hg
      exact h.read hc.2.2.1

lemma Inv.intact (h : Inv p s) : Intact s := by
  obtain ⟨w, ms, hw, hsent, hexpects⟩ := h
  refine ⟨fun hr => ?_, ⟨ms, hsent.symm⟩, fun hbytes hrest hr => ?_⟩
  · rw [hr] at hexpects
    exact hexpects
  · rw [hr, hbytes, hrest w] at hexpects
    cases ms with
    | nil => rw [hsent, List.append_nil]
    | cons m ms =>
        have hlen : 0 = ((m :: ms).flatMap p.frame).length := congrArg List.length hexpects
        rw [List.flatMap_cons, List.length_append, MessagePickle.frame, List.length_append,
          length_pack, structlen] at hlen
        omega

/-- A read that returns too little. -/
lemma Inv.short_read {k : ℕ} (h : Inv p s) (hk : k < s.reader.asks)
    (hexec : (machine p pipeBuf capacity).exec s (.read k) = some (o, t)) :
    t.reader = .raised := by
  obtain ⟨w, ms, hw, hsent, hexpects⟩ := h
  obtain ⟨hc, heq⟩ := Option.ite_none_right_eq_some.1 hexec
  obtain ⟨-, rfl⟩ := Prod.mk.inj (Option.some.inj heq)
  rw [State.read]
  cases hr : s.reader with
  | header =>
      have hlen : (s.bytes.take k).length ≠ structlen := by
        rw [hr, Reader.asks] at hk
        rw [List.length_take]
        omega
      rw [recv_header_short rfl hlen]
  | body n =>
      rw [hr] at hexpects hk
      obtain ⟨m, ms', rfl, rfl, hsplit⟩ := hexpects
      -- the bytes are the beginning of a pickle
      have hcut : s.bytes.take k = (p.dump m).take k := by
        rw [← List.take_append_of_le_length hc.2.2.1, hsplit,
          List.take_append_of_le_length (le_of_lt hk)]
      have hne : (p.dump m).take k ≠ p.dump m := by
        intro heq
        have hlen := congrArg List.length heq
        rw [List.length_take] at hlen
        rw [Reader.asks] at hk
        omega
      rw [recv_body_short rfl (by rw [hcut]; exact p.loads_cut m _ (List.take_prefix _ _) hne)]
  | raised => exact absurd hr hc.1

lemma inv_new (p : MessagePickle Msg) : Inv p {} :=
  ⟨0, [], fun _ _ => rfl, rfl, rfl⟩

/-- A write of at most `PIPE_BUF` bytes leaves nothing to write. -/
lemma rest_of_small (hs : ∀ c, s.rest c = []) (hg : Small p pipeBuf s e)
    (hexec : (machine p pipeBuf capacity).exec s e = some (o, t)) : ∀ c, t.rest c = [] := by
  intro d
  cases e with
  | send c m k =>
      obtain ⟨hc, heq⟩ := Option.ite_none_right_eq_some.1 hexec
      obtain ⟨-, rfl⟩ := Prod.mk.inj (Option.some.inj heq)
      obtain rfl : k = (p.frame m).length := hc.2.2.2.2 hg
      by_cases hd : d = c
      · simp [State.put, hd]
      · simp [State.put, hd, hs d]
  | write c k =>
      obtain ⟨hc, -⟩ := Option.ite_none_right_eq_some.1 hexec
      rw [hs c, List.length_nil] at hc
      omega
  | read k =>
      obtain ⟨-, heq⟩ := Option.ite_none_right_eq_some.1 hexec
      obtain ⟨-, rfl⟩ := Prod.mk.inj (Option.some.inj heq)
      rw [rest_read.1]
      exact hs d

end

/-- When every message fits into `PIPE_BUF`, none is divided. -/
theorem undivided_of_small {p : MessagePickle Msg} {pipeBuf capacity : ℕ} {t : State Msg}
    {l : List (Event Msg × Unit)}
    (hrun : Machine.Run (machine p pipeBuf capacity) (Small p pipeBuf) {} l t) :
    Machine.Run (machine p pipeBuf capacity) Undivided {} l t := by
  refine hrun.strengthen (I := fun s => ∀ c, s.rest c = [])
    (fun _ _ _ _ hs hg hexec => rest_of_small hs hg hexec) (fun s e hs hg => ?_) fun _ => rfl
  cases e with
  | send c m k => exact fun d _ => hs d
  | write c k => exact fun d _ => hs d
  | read k => exact hg

/-- For any number of children, any messages and any schedule in which no message is divided and
the reads are complete, the parent receives what was sent.  A read that returns too little makes
it raise. -/
theorem messages_intact {p : MessagePickle Msg} {pipeBuf capacity : ℕ} {t : State Msg}
    {l : List (Event Msg × Unit)}
    (hrun : Machine.Run (machine p pipeBuf capacity) Undivided {} l t) :
    Intact t ∧ ∀ k < t.reader.asks, ∀ o u,
      (machine p pipeBuf capacity).exec t (.read k) = some (o, u) → u.reader = .raised := by
  have hinv : Inv p t :=
    hrun.invariant (fun _ _ _ _ h hg hexec => h.exec hg hexec) (inv_new p)
  exact ⟨hinv.intact, fun k hk o u hexec => hinv.short_read hk hexec⟩

/-- A message that does not fit into `PIPE_BUF` can be lost: its first bytes are on the pipe when
the parent reads. -/
theorem exists_raised_of_large (p : MessagePickle Msg) (m : Msg) {pipeBuf capacity : ℕ}
    (hlarge : pipeBuf < (p.frame m).length) (hlen : 2 ≤ (p.dump m).length)
    (hcap : structlen + 1 ≤ capacity) :
    ∃ l t, Machine.Run (machine p pipeBuf capacity) Machine.Free {} l t ∧ t.sent = [m] ∧
      t.reader = .raised := by
  have hframe : (p.frame m).length = structlen + (p.dump m).length := by
    rw [MessagePickle.frame, List.length_append, length_pack]
  have htake : ((p.frame m).take (structlen + 1)).length = structlen + 1 := by
    rw [List.length_take]
    omega
  have hlength : ((p.frame m).take (structlen + 1)).take structlen =
      pack structlen (p.dump m).length := by
    rw [List.take_take, Nat.min_eq_left (Nat.le_succ _), MessagePickle.frame,
      List.take_left' (length_pack _ _)]
  -- the length and one byte of the pickle are on the pipe
  let s₁ : State Msg := State.put { sent := [m] } 0 (p.frame m) (structlen + 1)
  have hinv₁ : Inv p s₁ := (inv_new p).send rfl (fun _ _ => rfl) m _
  have hsend : (machine p pipeBuf capacity).exec {} (.send 0 m (structlen + 1)) = some ((), s₁) :=
    if_pos ⟨rfl, by omega, by omega, by simpa using hcap, fun h => absurd h (by omega)⟩
  have hread : (machine p pipeBuf capacity).exec s₁ (.read structlen) =
      some ((), s₁.read p structlen) :=
    exec_read (by simp [s₁, State.put]) (by decide) le_rfl (by simp [s₁, State.put, htake])
  have hs₂ : s₁.read p structlen =
      { s₁ with
        bytes := ((p.frame m).take (structlen + 1)).drop structlen
        reader := .body (p.dump m).length } := by
    rw [State.read, recv_header rfl (by simp [s₁, State.put, hlength, length_pack])]
    simp [s₁, State.put, hlength, unpack_pack (p.length_lt m)]
  have hinv₂ : Inv p (s₁.read p structlen) :=
    hinv₁.read (by simp [s₁, State.put, htake, Reader.asks])
  have hshort : (machine p pipeBuf capacity).exec (s₁.read p structlen) (.read 1) =
      some ((), (s₁.read p structlen).read p 1) := by
    rw [hs₂]
    exact exec_read (by simp) le_rfl (by simp [Reader.asks]; omega) (by simp [htake])
  refine ⟨_, _, .cons trivial hsend (.cons trivial hread (.cons trivial hshort (.nil _))), ?_,
    hinv₂.short_read ?_ hshort⟩
  · rw [rest_read.2, rest_read.2]
    rfl
  · rw [hs₂]
    exact hlen

/-! ### Messages of a given length -/

/-- The pickle of a text of `n` letters. -/
def dumpLetters (n : Fin 8192) : Str := List.replicate n 0x61 ++ [0x2E]

/-- Reads the pickle of a text of letters. -/
def loadLetters (s : Str) : Except LoadError (Fin 8192 × ℕ) :=
  if h : s.length - 1 < 8192 then
    if s = List.replicate (s.length - 1) 0x61 ++ [0x2E] then .ok (⟨s.length - 1, h⟩, s.length)
    else .error .unpickling
  else .error .unpickling

lemma length_dumpLetters (n : Fin 8192) : (dumpLetters n).length = n + 1 := by
  rw [dumpLetters, List.length_append, List.length_replicate, List.length_singleton]

lemma loadLetters_dumpLetters (n : Fin 8192) :
    loadLetters (dumpLetters n) = .ok (n, (dumpLetters n).length) := by
  have hlen : (dumpLetters n).length - 1 = n := by
    rw [length_dumpLetters, Nat.add_sub_cancel]
  simp only [loadLetters, hlen, n.isLt, dif_pos]
  rw [if_pos (by rw [dumpLetters])]

lemma loadLetters_of_cut {n : Fin 8192} {s : Str} (hs : s <+: dumpLetters n)
    (hne : s ≠ dumpLetters n) : loadLetters s = .error .unpickling := by
  have hlt : s.length ≤ n := by
    have hle := hs.length_le
    have hnot : s.length ≠ _ := fun heq => hne (hs.eq_of_length heq)
    rw [length_dumpLetters] at hle hnot
    omega
  -- all of its bytes are letters
  have hall : s = List.replicate s.length 0x61 := by
    have htake := List.prefix_iff_eq_take.1 hs
    rw [dumpLetters, List.take_append_of_le_length (by simpa using hlt), List.take_replicate,
      Nat.min_eq_left hlt] at htake
    exact htake
  have hstop : s ≠ List.replicate (s.length - 1) 0x61 ++ [0x2E] := by
    intro heq
    have hmem : (0x2E : UInt8) ∈ List.replicate s.length 0x61 :=
      hall ▸ heq ▸ List.mem_append_right _ (List.mem_singleton.2 rfl)
    exact absurd (List.eq_of_mem_replicate hmem) (by decide)
  simp only [loadLetters, if_neg hstop, dite_eq_ite, ite_self]

/-- The texts of letters as messages. -/
def letters : MessagePickle (Fin 8192) where
  dump := dumpLetters
  load := loadLetters
  load_dump := loadLetters_dumpLetters
  loads_cut _ _ hs hne :=
    congrArg (fun x => x.toOption.map Prod.fst) (loadLetters_of_cut hs hne)
  length_lt n := by
    rw [length_dumpLetters, structlen]
    omega

instance {p : MessagePickle Msg} {pipeBuf : ℕ} (s : State Msg) : (e : Event Msg) →
    Decidable (Small p pipeBuf s e)
  | .send _ m _ => inferInstanceAs (Decidable ((p.frame m).length ≤ pipeBuf))
  | .write _ _ => isTrue trivial
  | .read k => inferInstanceAs (Decidable (k = s.reader.asks))

/-- Two children send a message each. -/
theorem messages_intact_two : ∃ (t : State (Fin 8192)) (l : _),
    Machine.Run (machine letters 4096 65536) Undivided {} l t ∧ t.received = [1, 0] ∧ Intact t := by
  obtain ⟨l, t, hrun, ht⟩ := Machine.exists_run_of_any
    (M := (machine letters 4096 65536).guard (Small letters 4096)) (G := Machine.Free) (s := {})
    [.send 0 1 10, .send 1 0 9, .read 8, .read 2, .read 8, .read 1]
    (p := fun x => decide (x.2.received = [1, 0])) (fun _ _ _ => trivial) (by decide)
  have hrun := undivided_of_small (Machine.run_of_guard hrun)
  exact ⟨t, l, hrun, of_decide_eq_true ht, (messages_intact hrun).1⟩

/-- A pickle of 5001 bytes is lost on a pipe of the usual size. -/
theorem not_messages_intact : ∃ (t : State (Fin 8192)) (l : _),
    Machine.Run (machine letters 4096 65536) Machine.Free {} l t ∧ t.sent = [5000] ∧
      ¬ Intact t := by
  have hlen : (letters.dump 5000).length = 5001 := length_dumpLetters 5000
  have hbig : 4096 < structlen + 5001 := by decide
  have hcap : structlen + 1 ≤ 65536 := by decide
  obtain ⟨l, t, hrun, hsent, hraised⟩ := exists_raised_of_large letters 5000
    (by rw [MessagePickle.frame, List.length_append, length_pack, hlen]; exact hbig) (by omega) hcap
  exact ⟨t, l, hrun, hsent, fun h => h.raised hraised⟩

end Pipe

end Mycelium
