import Mycelium.Crawler.Crawl

/-!
# The states of the handles

The state of a handle is written in many places of `done` and `reschedule`, while curl keeps its own
account of the transfers.  Between the callbacks the two agree: IDLE means that no transfer has been
added, and the transient state NEXT is never seen.  No callback therefore meets one of the errors
that the state machine reserves for a disagreement.
-/

namespace Mycelium

open Lib Bson

namespace GlobalInfo

variable {Q : PriorityQueue hostKey} {cfg : Config} {N id : ℕ} {g g' : GlobalInfo Q}
  {h : EasyHandle} {o : Option Transfer} {log : List Event} {r : Completion}

/-- curl reports a completion only for a transfer that has been added. -/
def Input.Delivered (g : GlobalInfo Q) : Input → Prop
  | .push _ => True
  | .tick _ => True
  | .complete id _ => g.multi id ≠ none

lemma HandleOk.idle_iff {q : List Url} (hh : HandleOk h o q) : h.state = .idle ↔ o = none :=
  ⟨hh.free, hh.idle⟩

lemma HandleOk.busy {q : List Url} (hh : HandleOk h o q) (ho : o ≠ none) :
    h.state = .robots ∨ h.state = .head ∨ h.state = .content := by
  obtain ⟨t, rfl⟩ := Option.ne_none_iff_exists'.1 ho
  have hserves := hh.serves t rfl
  rw [hserves.state]
  exact hserves.state_cases

/-! ### The errors that are not met -/

lemma Inv.orderly_rescheduleIdle {loads : ℕ → Url → Load} (hg : Inv N g) (hid : id < N) :
    Orderly (g.rescheduleIdle cfg loads id) := by
  unfold GlobalInfo.rescheduleIdle
  split
  · next hst =>
      have hfree : g.multi id = none := (hg.handles id hid).free hst
      refine Orderly.bind ?_ fun x _ => orderly_add hfree
      exact EasyHandle.orderly_reschedule (hg.queues.mem_ns hid) (by simp [hst])
  · exact .ok g

lemma Inv.orderly_reschedule {loads : ℕ → Url → Load} (hg : Inv N g) :
    Orderly (g.reschedule cfg N loads) :=
  Orderly.foldlM (I := Inv N)
    (fun _ hid _ hg => hg.orderly_rescheduleIdle (List.mem_range.1 hid))
    (fun _ hid _ _ hg hbody => (hg.rescheduleIdle (List.mem_range.1 hid) hbody).1) hg

/-- A reaction throws only what the URLs and the database throw. -/
lemma Inv.orderly_step {i : Input} (hg : Inv N g) (hi : i.Delivered g) :
    Orderly (g.step cfg N i) := by
  cases i with
  | push line => exact (Orderly.run (by decide) _).bind fun _ _ => .ok _
  | tick loads => exact hg.orderly_reschedule.bind fun _ _ => .ok _
  | complete id r =>
      obtain ⟨t, ht⟩ := Option.ne_none_iff_exists'.1 hi
      exact hg.orderly_checkRunCount ht

/-! ### A handle that is left without a transfer -/

/-- `done` leaves a handle without a transfer only when its queue and `top_q` are empty. -/
lemma Inv.exhausted_of_checkRunCount (hg : Inv N g)
    (hr : g.checkRunCount cfg id r = .ok (log, g')) (hnone : g'.multi id = none) :
    g'.classifier.emptyTop = true ∧ g'.classifier.deques id = [] := by
  obtain ⟨t, h', s', o, h₂, c₂, -, hid, hh, hstage, hres, rfl⟩ := hg.exists_stage hr
  rw [multi_turn_self] at hnone
  subst hnone
  obtain ⟨-, -, rest, hd, rfl, -⟩ := hstage.popped hh
  -- `reschedule` has added nothing
  rcases EasyHandle.reschedule_ok hres with ⟨hex, -, hc, -⟩ | ⟨_, _, _, _, hsome, -⟩
  · rw [EasyHandle.exhausted_of_mem ((hg.queues.drop hid hd).mem_ns hid), ← hc,
      Except.ok.injEq, Bool.and_eq_true, List.isEmpty_iff] at hex
    exact hex
  · exact absurd hsome (by simp)

/-- In every run, a handle is in the state IDLE exactly when it has no transfer, and else in ROBOTS,
HEAD or CONTENT.  No reaction adds a transfer twice, calls `done` on an idle handle or meets an
unknown state: it throws only what the URLs and the database throw.  After `done` a handle whose
queue or `top_q` is not empty has a transfer. -/
theorem idle_iff_no_transfer {db : Collection} {l : List (Input × List Event)}
    (h : (machine cfg N).Run Machine.Free (new Q db N) l g) :
    (∀ id < N, ((g.handles id).state = .idle ↔ g.multi id = none) ∧
      (g.multi id ≠ none → (g.handles id).state = .robots ∨ (g.handles id).state = .head ∨
        (g.handles id).state = .content)) ∧
    (∀ i : Input, i.Delivered g → Orderly (g.step cfg N i)) ∧
    ∀ id r log g', g.step cfg N (.complete id r) = .ok (log, g') → g'.multi id = none →
      g'.classifier.emptyTop = true ∧ g'.classifier.deques id = [] := by
  have hg := inv_of_run h
  refine ⟨fun id hid => ⟨(hg.handles id hid).idle_iff, (hg.handles id hid).busy⟩,
    fun i hi => hg.orderly_step hi, fun id r log g' hs hnone => ?_⟩
  exact hg.exhausted_of_checkRunCount hs hnone

/-- Two handles and one URL: the scheduler starts the request for `robots.txt` on the handle 0 and
leaves the handle 1 idle. -/
theorem idle_iff_no_transfer_tick :
    ∃ (l : List (Input × List Event)) (g : GlobalInfo (PriorityQueue.ofList hostKey)),
      (machine plainConfig 2).Run Machine.Free (new _ (fun _ => none) 2) l g ∧ l.length = 2 ∧
        (g.handles 0).state = .robots ∧ g.multi 0 ≠ none ∧ g.multi 1 = none := by
  obtain ⟨l, g, hrun, hp⟩ := Machine.exists_run_of_any
    (M := machine plainConfig 2) (G := Machine.Free)
    (s := new (PriorityQueue.ofList hostKey) (fun _ => none) 2)
    (p := fun x => x.1.length == 2 && (x.2.handles 0).state == .robots &&
      (x.2.handles 1).state == .idle)
    [.push (lit "http://a/x"), .tick fun _ _ => {}] (fun _ _ _ => trivial) (by decide +kernel)
  simp only [Bool.and_eq_true, beq_iff_eq] at hp
  obtain ⟨⟨hlen, h0⟩, h1⟩ := hp
  have hidle := (idle_iff_no_transfer hrun).1
  refine ⟨l, g, hrun, hlen, h0, fun hnone => ?_, (hidle 1 (by decide)).1.1 h1⟩
  exact absurd (h0.symm.trans ((hidle 0 (by decide)).1.2 hnone)) (by decide)

end GlobalInfo

end Mycelium
