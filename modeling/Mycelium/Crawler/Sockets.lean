import Mathlib.Data.Nat.Bitwise
import Mycelium.Lib.Machine

/-!
# The sockets of the transfers

curl tells `sock_cb` which sockets it wants to be watched for what, in any order.  The callback
keeps a `SockInfo` for every such socket, which holds an event of libevent; curl stores the pointer
to it, and gives it back with the next call for the socket.  After any calls the events that
libevent has are those that curl has asked for last, no memory is used after it was freed, and none
is lost.
-/

namespace Mycelium

open Lib

/-! ### The constants of curl and libevent -/

def curlPollIn : ℕ := 1
def curlPollOut : ℕ := 2
def curlPollRemove : ℕ := 4

def curlCselectIn : ℕ := 1
def curlCselectOut : ℕ := 2

/-- The flags of an event. -/
structure EventKind where
  read : Bool := false
  write : Bool := false
  persist : Bool := false
deriving DecidableEq, Repr

/-- The part of `struct event` that `event_set` fills. -/
structure SockEvent where
  fd : ℕ := 0
  kind : EventKind := {}
deriving DecidableEq, Repr

/-- `struct SockInfo`, without the pointer to the crawler and the timeout, which is not used. -/
structure SockInfo where
  sockfd : ℕ := 0
  easy : ℕ := 0
  action : ℕ := 0
  ev : SockEvent := {}
  evset : Bool := false
deriving DecidableEq, Repr

/-- The memory of the callbacks, libevent and curl. -/
structure Sockets where
  /-- The `SockInfo` at an address; `none` is memory that is not allocated. -/
  heap : ℕ → Option SockInfo := fun _ => none
  /-- The event at an address is in the lists of libevent. -/
  added : ℕ → Bool := fun _ => false
  /-- The pointer of `curl_multi_assign` for a socket. -/
  assigned : ℕ → Option ℕ := fun _ => none
  /-- What curl has asked for last, for a socket. -/
  wanted : ℕ → Option ℕ := fun _ => none

namespace Sockets

/-! ### libevent -/

/-- Every access to memory that is not allocated is `none`. -/
def store (g : Sockets) (p : ℕ) (i : SockInfo) : Sockets :=
  { g with heap := Function.update g.heap p (some i) }

def eventDel (g : Sockets) (p : ℕ) : Option Sockets := do
  let _ ← g.heap p
  some { g with added := Function.update g.added p false }

/-- `event_set`, which breaks the lists of libevent if the event is in them. -/
def eventSet (g : Sockets) (p fd : ℕ) (kind : EventKind) : Option Sockets := do
  let i ← g.heap p
  if g.added p then none else some (g.store p { i with ev := ⟨fd, kind⟩ })

def eventAdd (g : Sockets) (p : ℕ) : Option Sockets := do
  let _ ← g.heap p
  some { g with added := Function.update g.added p true }

/-! ### The callbacks -/

/-- The flags for what curl asks for. -/
def kindOf (action : ℕ) : EventKind where
  read := action &&& curlPollIn != 0
  write := action &&& curlPollOut != 0
  persist := true

def setsock (g : Sockets) (p s e action : ℕ) : Option Sockets := do
  let i ← g.heap p
  let g := g.store p { i with sockfd := s, action := action, easy := e }
  let g ← if i.evset then g.eventDel p else some g
  let g ← g.eventSet p s (kindOf action)
  let i ← g.heap p
  (g.store p { i with evset := true }).eventAdd p

/-- `addsock`, with the address that `new` returns. -/
def addsock (g : Sockets) (p s e action : ℕ) : Option Sockets := do
  let g ← (g.store p {}).setsock p s e action
  some { g with assigned := Function.update g.assigned s (some p) }

def remsock (g : Sockets) : Option ℕ → Option Sockets
  | none => some g
  | some p => do
      let i ← g.heap p
      let g ← if i.evset then g.eventDel p else some g
      some { g with heap := Function.update g.heap p none }

/-- `sock_cb`; `sockp` is the pointer that curl has for the socket. -/
def sockCb (g : Sockets) (p e s what : ℕ) (sockp : Option ℕ) : Option Sockets :=
  if what = curlPollRemove then g.remsock sockp
  else
    match sockp with
    | none => g.addsock p s e what
    | some q => g.setsock q s e what

/-- `multi_cb`: the argument of `curl_multi_socket_action`. -/
def multiCb (kind : EventKind) : ℕ :=
  (if kind.read then curlCselectIn else 0) ||| (if kind.write then curlCselectOut else 0)

inductive Input where
  /-- curl calls `sock_cb` for an easy handle and a socket; a `SockInfo` that is allocated gets the
  address `p`. -/
  | poll (p e s what : ℕ)
  /-- libevent calls `multi_cb` for the event at an address, of which some conditions hold. -/
  | ready (p : ℕ) (read write : Bool)
deriving DecidableEq, Repr

/-- The socket and the conditions that are given to curl. -/
abbrev Answer := Option (ℕ × ℕ)

/-- curl forgets a socket after it was removed. -/
def record (g : Sockets) (s what : ℕ) : Sockets :=
  if what = curlPollRemove then
    { g with
      assigned := Function.update g.assigned s none
      wanted := Function.update g.wanted s none }
  else { g with wanted := Function.update g.wanted s (some what) }

def machine : Machine Sockets Input Answer where
  exec g
    | .poll p e s what => (g.sockCb p e s what (g.assigned s)).map fun g => (none, g.record s what)
    | .ready p read write =>
        if g.added p then (g.heap p).map fun i =>
          (some (i.ev.fd, multiCb { read := read && i.ev.kind.read
                                    write := write && i.ev.kind.write }), g)
        else none

/-- `new` returns memory that is not allocated, and libevent calls back for events that it has. -/
def Possible (g : Sockets) : Input → Prop
  | .poll p _ _ _ => g.heap p = none
  | .ready p _ _ => g.added p = true

instance (g : Sockets) : (i : Input) → Decidable (Possible g i)
  | .poll p _ _ _ => inferInstanceAs (Decidable (g.heap p = none))
  | .ready p _ _ => inferInstanceAs (Decidable (g.added p = true))

/-! ### The events -/

variable {g g' : Sockets} {p q s e a : ℕ} {i : SockInfo}

/-- `setsock` on an event that is in the lists of libevent exactly if `evset` says so. -/
lemma setsock_eq (hi : g.heap p = some i) (hadded : g.added p = i.evset) :
    g.setsock p s e a = some { g with
      heap := Function.update g.heap p (some { i with
        sockfd := s, easy := e, action := a, ev := ⟨s, kindOf a⟩, evset := true })
      added := Function.update g.added p true } := by
  cases hset : i.evset <;>
    simp [setsock, hi, hset, store, eventDel, eventSet, eventAdd, hadded, Function.update_idem]

lemma remsock_eq (hi : g.heap p = some i) (hset : i.evset = true) :
    g.remsock (some p) = some { g with
      heap := Function.update g.heap p none
      added := Function.update g.added p false } := by
  simp [remsock, hi, hset, eventDel]

/-- Every socket that curl knows has its event, and nothing else is allocated or registered. -/
structure Registered (g : Sockets) : Prop where
  live : ∀ s p, g.assigned s = some p → ∃ i a, g.heap p = some i ∧ i.evset = true ∧
    g.added p = true ∧ g.wanted s = some a ∧ i.ev = ⟨s, kindOf a⟩
  wanted : ∀ s, g.assigned s = none → g.wanted s = none
  heap : ∀ p i, g.heap p = some i → ∃ s, g.assigned s = some p
  added : ∀ p, g.added p = true → ∃ s, g.assigned s = some p

namespace Registered

/-- No two sockets share a `SockInfo`. -/
lemma injective (h : Registered g) {s t : ℕ} (hs : g.assigned s = some p)
    (ht : g.assigned t = some p) : s = t := by
  obtain ⟨i, w, hi, -, -, -, hev⟩ := h.live s p hs
  obtain ⟨j, w', hj, -, -, -, hev'⟩ := h.live t p ht
  obtain rfl := Option.some.inj (hi.symm.trans hj)
  exact (SockEvent.mk.inj (hev.symm.trans hev')).1

/-- The socket is watched by the event at `p`, which no other socket has. -/
lemma watch (h : Registered g) (hp : ∀ t, g.assigned t = some p → t = s)
    (hq : ∀ q, g.assigned s = some q → q = p) (hset : i.evset = true)
    (hev : i.ev = ⟨s, kindOf a⟩) :
    Registered { g with
      heap := Function.update g.heap p (some i)
      added := Function.update g.added p true
      assigned := Function.update g.assigned s (some p)
      wanted := Function.update g.wanted s (some a) } := by
  have hother : ∀ {q}, q ≠ p → (∃ t, g.assigned t = some q) →
      ∃ t, Function.update g.assigned s (some p) t = some q := by
    rintro q hne ⟨t, ht⟩
    refine ⟨t, ?_⟩
    rwa [Function.update_of_ne]
    rintro rfl
    exact hne (hq q ht)
  have hthis : ∃ t, Function.update g.assigned s (some p) t = some p :=
    ⟨s, Function.update_self ..⟩
  refine ⟨fun t q ht => ?_, fun t ht => ?_, fun q j hj => ?_, fun q hadded => ?_⟩
  · by_cases hts : t = s
    · subst hts
      obtain rfl : p = q := by simpa using ht
      exact ⟨i, a, by simp, hset, by simp, by simp, hev⟩
    · have ht' : g.assigned t = some q := by simpa [hts] using ht
      have hqp : q ≠ p := by
        rintro rfl
        exact hts (hp t ht')
      obtain ⟨j, w, hj, hrest⟩ := h.live t q ht'
      exact ⟨j, w, by simpa [hqp] using hj, by simpa [hqp, hts] using hrest⟩
  · by_cases hts : t = s
    · simp [hts] at ht
    · have ht' : g.assigned t = none := by simpa [hts] using ht
      simpa [hts] using h.wanted t ht'
  · by_cases hqp : q = p
    · exact hqp ▸ hthis
    · exact hother hqp (h.heap q j (by simpa [hqp] using hj))
  · by_cases hqp : q = p
    · exact hqp ▸ hthis
    · exact hother hqp (h.added q (by simpa [hqp] using hadded))

/-- The socket and its event are removed. -/
lemma remove (h : Registered g) (hp : g.assigned s = some p) :
    Registered { g with
      heap := Function.update g.heap p none
      added := Function.update g.added p false
      assigned := Function.update g.assigned s none
      wanted := Function.update g.wanted s none } := by
  have hother : ∀ {q}, q ≠ p → (∃ t, g.assigned t = some q) →
      ∃ t, Function.update g.assigned s none t = some q := by
    rintro q hne ⟨t, ht⟩
    refine ⟨t, ?_⟩
    rwa [Function.update_of_ne]
    rintro rfl
    exact hne (Option.some.inj (ht.symm.trans hp))
  refine ⟨fun t q ht => ?_, fun t ht => ?_, fun q j hj => ?_, fun q hadded => ?_⟩
  · by_cases hts : t = s
    · simp [hts] at ht
    · have ht' : g.assigned t = some q := by simpa [hts] using ht
      have hqp : q ≠ p := by
        rintro rfl
        exact hts (h.injective ht' hp)
      obtain ⟨j, w, hj, hrest⟩ := h.live t q ht'
      exact ⟨j, w, by simpa [hqp] using hj, by simpa [hqp, hts] using hrest⟩
  · by_cases hts : t = s
    · simp [hts]
    · have ht' : g.assigned t = none := by simpa [hts] using ht
      simpa [hts] using h.wanted t ht'
  · by_cases hqp : q = p
    · simp [hqp] at hj
    · exact hother hqp (h.heap q j (by simpa [hqp] using hj))
  · by_cases hqp : q = p
    · simp [hqp] at hadded
    · exact hother hqp (h.added q (by simpa [hqp] using hadded))

/-- A call of `sock_cb` for memory that is not allocated. -/
lemma sockCb (h : Registered g) (hp : g.heap p = none) :
    ∃ g', g.sockCb p e s a (g.assigned s) = some g' ∧ Registered (g'.record s a) ∧
      (g'.record s a).wanted =
        Function.update g.wanted s (if a = curlPollRemove then none else some a) := by
  by_cases hw : a = curlPollRemove
  · cases hs : g.assigned s with
    | none =>
        refine ⟨g, by simp [Sockets.sockCb, hw, remsock], ?_, by simp [record, hw]⟩
        have hsame : g.record s a = g := by
          have hwanted := h.wanted s hs
          simp only [record, if_pos hw]
          rw [← hs, Function.update_eq_self, hs, ← hwanted, Function.update_eq_self]
        rw [hsame]
        exact h
    | some q =>
        obtain ⟨i, w, hi, hset, -⟩ := h.live s q hs
        refine ⟨_, by rw [Sockets.sockCb, if_pos hw, remsock_eq hi hset], ?_, by simp [record, hw]⟩
        rw [record, if_pos hw]
        exact h.remove hs
  · simp only [Sockets.sockCb, if_neg hw]
    cases hs : g.assigned s with
    | none =>
        have hfree : ∀ t, g.assigned t ≠ some p := by
          intro t ht
          obtain ⟨i, w, hi, -⟩ := h.live t p ht
          exact absurd (hp.symm.trans hi) (by simp)
        have hadded : g.added p = false := by
          by_contra hadded
          obtain ⟨t, ht⟩ := h.added p (by simpa using hadded)
          exact hfree t ht
        have hset := setsock_eq (g := g.store p {}) (p := p) (s := s) (e := e) (a := a)
          (Function.update_self ..) hadded
        refine ⟨_, by simp only [addsock, hset]; rfl, ?_, by simp [record, hw, store]⟩
        simp only [record, if_neg hw, store, Function.update_idem]
        exact h.watch (fun t ht => absurd ht (hfree t)) (fun q hq => by simp [hs] at hq) rfl rfl
    | some q =>
        obtain ⟨i, w, hi, hset, hadded, -⟩ := h.live s q hs
        refine ⟨_, setsock_eq hi (hadded.trans hset.symm), ?_, by simp [record, hw]⟩
        have hwatch := h.watch (p := q) (s := s) (a := a)
          (i := { i with
            sockfd := s, easy := e, action := a, ev := ⟨s, kindOf a⟩, evset := true })
          (fun t ht => h.injective ht hs) (fun r hr => Option.some.inj (hr.symm.trans hs)) rfl rfl
        rw [← hs, Function.update_eq_self] at hwatch
        rwa [record, if_neg hw]

end Registered

/-- A call of `sock_cb` replaces what curl has asked for. -/
def want (f : ℕ → Option ℕ) : Input → ℕ → Option ℕ
  | .poll _ _ s what => Function.update f s (if what = curlPollRemove then none else some what)
  | .ready _ _ _ => f

/-- What curl has asked for last for each socket. -/
def interest (l : List (Input × Answer)) : ℕ → Option ℕ :=
  l.foldl (fun f x => want f x.1) fun _ => none

lemma registered_exec {x : Input} {o : Answer} (h : Registered g) (hx : Possible g x)
    (hexec : machine.exec g x = some (o, g')) : Registered g' ∧ g'.wanted = want g.wanted x := by
  cases x with
  | poll p e s what =>
      obtain ⟨g'', hcb, hreg, hwanted⟩ := h.sockCb (e := e) (s := s) (a := what) hx
      simp only [machine, hcb, Option.map_some, Option.some.injEq, Prod.mk.injEq] at hexec
      exact hexec.2 ▸ ⟨hreg, hwanted⟩
  | ready p r w =>
      simp only [machine] at hexec
      split at hexec
      · obtain ⟨i, -, heq⟩ := Option.map_eq_some_iff.1 hexec
        exact (Prod.mk.inj heq).2 ▸ ⟨h, rfl⟩
      · exact absurd hexec (by simp)

/-- The requests of a run are those that the events stand for. -/
lemma registered_of_run {l : List (Input × Answer)} (h : machine.Run Possible {} l g) :
    Registered g ∧ g.wanted = interest l := by
  refine h.refinement (R := fun g a => Registered g ∧ g.wanted = a) (fun f x => want f x.1) ?_ ?_
  · rintro g x o g' _ ⟨hreg, rfl⟩ hx hexec
    exact registered_exec hreg hx hexec
  · exact ⟨⟨by simp, by simp, by simp, by simp⟩, rfl⟩

/-- curl is told of the conditions that hold among those that it has asked for. -/
lemma multiCb_eq (read write : Bool) (what : ℕ) :
    multiCb { read := read && (kindOf what).read, write := write && (kindOf what).write } =
      (if read then what &&& curlPollIn else 0) |||
        (if write then what &&& curlPollOut else 0) := by
  have hin : what &&& curlPollIn = if what.testBit 0 then 1 else 0 := by
    rw [show curlPollIn = 2 ^ 0 from rfl, Nat.and_two_pow]
    cases what.testBit 0 <;> rfl
  have hout : what &&& curlPollOut = if what.testBit 1 then 2 else 0 := by
    rw [show curlPollOut = 2 ^ 1 from rfl, Nat.and_two_pow]
    cases what.testBit 1 <;> rfl
  simp only [multiCb, kindOf, hin, hout]
  cases read <;> cases write <;> cases what.testBit 0 <;> cases what.testBit 1 <;> rfl

/-- After any calls, in any order: libevent has one event for each socket that curl has asked for
last, with the flags of that request, and no other; the memory that is allocated is that of these
events; the next call goes through without touching other memory, and curl is told of conditions
that it has asked for. -/
theorem added_iff_interest {l : List (Input × Answer)} (h : machine.Run Possible {} l g) :
    (∀ s kind, (∃ p i, g.added p = true ∧ g.heap p = some i ∧ i.ev = ⟨s, kind⟩) ↔
        ∃ what, interest l s = some what ∧ kind = kindOf what) ∧
      (∀ p q i j, g.heap p = some i → g.heap q = some j → i.ev.fd = j.ev.fd → p = q) ∧
      (∀ p, g.added p = (g.heap p).isSome) ∧
      (∀ p e s what, g.heap p = none → (machine.exec g (.poll p e s what)).isSome) ∧
      ∀ p read write, g.added p = true → ∃ s what, interest l s = some what ∧
        machine.exec g (.ready p read write) = some (some (s,
          (if read then what &&& curlPollIn else 0) |||
            (if write then what &&& curlPollOut else 0)), g) := by
  obtain ⟨hreg, hwanted⟩ := registered_of_run h
  have hlive : ∀ p, (∃ s, g.assigned s = some p) → ∃ s i what, g.assigned s = some p ∧
      g.heap p = some i ∧ g.added p = true ∧ interest l s = some what ∧
      i.ev = ⟨s, kindOf what⟩ := by
    rintro p ⟨s, hs⟩
    obtain ⟨i, what, hi, -, hadded, hw, hev⟩ := hreg.live s p hs
    exact ⟨s, i, what, hs, hi, hadded, hwanted ▸ hw, hev⟩
  refine ⟨fun s kind => ⟨?_, ?_⟩, fun p q i j hi hj hfd => ?_, fun p => ?_, fun p e s what hp => ?_,
    fun p read write hp => ?_⟩
  · rintro ⟨p, i, hadded, hi, hev⟩
    obtain ⟨t, j, what, -, hj, -, hw, hev'⟩ := hlive p (hreg.added p hadded)
    obtain rfl := Option.some.inj (hi.symm.trans hj)
    obtain ⟨rfl, rfl⟩ := SockEvent.mk.inj (hev.symm.trans hev')
    exact ⟨what, hw, rfl⟩
  · rintro ⟨what, hw, rfl⟩
    cases hs : g.assigned s with
    | none =>
        rw [← hwanted, hreg.wanted s hs] at hw
        exact absurd hw (by simp)
    | some p =>
        obtain ⟨i, w, hi, -, hadded, hw', hev⟩ := hreg.live s p hs
        obtain rfl : w = what := Option.some.inj ((hwanted ▸ hw').symm.trans hw)
        exact ⟨p, i, hadded, hi, hev⟩
  · obtain ⟨s, i', w, hs, hi', -, -, hev⟩ := hlive p (hreg.heap p i hi)
    obtain ⟨t, j', w', ht, hj', -, -, hev'⟩ := hlive q (hreg.heap q j hj)
    obtain rfl := Option.some.inj (hi.symm.trans hi')
    obtain rfl := Option.some.inj (hj.symm.trans hj')
    rw [hev, hev'] at hfd
    obtain rfl : s = t := hfd
    exact Option.some.inj (hs.symm.trans ht)
  · cases hadded : g.added p with
    | true =>
        obtain ⟨s, i, w, -, hi, -⟩ := hlive p (hreg.added p hadded)
        rw [hi]
        rfl
    | false =>
        cases hi : g.heap p with
        | none => rfl
        | some i =>
            obtain ⟨s, j, w, -, -, hadded', -⟩ := hlive p (hreg.heap p i hi)
            exact absurd (hadded.symm.trans hadded') (by simp)
  · obtain ⟨g', hcb, -⟩ := hreg.sockCb (e := e) (s := s) (a := what) hp
    simp [machine, hcb]
  · obtain ⟨s, i, what, -, hi, -, hw, hev⟩ := hlive p (hreg.added p hp)
    refine ⟨s, what, hw, ?_⟩
    simp only [machine, if_pos hp, hi, Option.map_some, hev, multiCb_eq]

/-- Two sockets, of which the first one is watched for more later and the second one removed; its
memory is used again for a third one. -/
theorem added_iff_interest_three : ∃ (l : List (Input × Answer)) (g : Sockets),
    machine.Run Possible {} l g ∧ interest l 7 = some 3 ∧ interest l 8 = none ∧
      (∃ p i, g.added p = true ∧ g.heap p = some i ∧ i.ev = ⟨7, kindOf 3⟩) ∧
      ¬∃ p i, g.added p = true ∧ g.heap p = some i ∧ i.ev = ⟨8, kindOf 2⟩ := by
  obtain ⟨l, g, hrun, hp⟩ := Machine.exists_run_of_any
    (M := machine.guard Possible) (G := Machine.Free) (s := {})
    (p := fun x => decide (interest x.1 7 = some 3 ∧ interest x.1 8 = none))
    [.poll 100 1 7 1, .poll 104 2 8 2, .poll 108 1 7 3, .ready 100 true false, .poll 108 2 8 4,
      .poll 104 3 9 1]
    (fun _ _ _ => trivial) (by decide)
  obtain ⟨h7, h8⟩ : interest l 7 = some 3 ∧ interest l 8 = none := of_decide_eq_true hp
  have hrun' := Machine.run_of_guard hrun
  have hiff := (added_iff_interest hrun').1
  refine ⟨l, g, hrun', h7, h8, (hiff 7 _).2 ⟨3, h7, rfl⟩, fun hex => ?_⟩
  obtain ⟨what, hw, -⟩ := (hiff 8 _).1 hex
  exact absurd (h8.symm.trans hw) (by simp)

end Sockets

end Mycelium
