import Mycelium.Common.Bytes
import Mycelium.Lib.Lines

/-!
# The console of the crawler

`interactive_process` cuts what was read from the console into lines and runs each of them as a
command.  It keeps what follows the last line end, also when it has just run it at the end of the
input.  As the event stays registered, every further notification of the end runs the last line
again.  The test that is to skip empty lines skips lines of one character as well.
-/

namespace Mycelium

open Lib

/-- The console of `GlobalInfo`. -/
structure Console where
  interactiveBuff : Str := []
  /-- `interactive_event` has been added and not deleted. -/
  registered : Bool := true
  /-- The calls of `interactive_cmd` so far. -/
  calls : List Str := []
deriving DecidableEq, Repr

/-- What `read` gives: some bytes, none at the end of the input, or an error. -/
inductive ReadResult where
  | bytes (b : Str)
  | error
deriving DecidableEq, Repr

namespace Console

/-- A call of `GlobalInfo::interactive_cmd`. -/
def interactiveCmd (g : Console) (cmd : Str) : Console := { g with calls := g.calls ++ [cmd] }

/-- The body of the loop of `interactive_process`. -/
def runLine (g : Console) (line : Str) : Console :=
  -- `hare > tortoise+1`
  if line.length > 1 then g.interactiveCmd line else g

/-- `GlobalInfo::interactive_process`. -/
def interactiveProcess (flush : Bool) (g : Console) : Console :=
  if g.interactiveBuff.isEmpty then g
  else
    let (g, rest) := eachLine isSeparator runLine g [] g.interactiveBuff
    let g := if flush && !rest.isEmpty then g.interactiveCmd rest else g
    -- `interactive_buff.substr(tortoise)`, with the line that was flushed
    { g with interactiveBuff := rest }

/-- `on_read_interactive_cb`. -/
def onReadInteractiveCb (g : Console) : ReadResult → Console
  | .bytes b =>
      if b.isEmpty then g.interactiveProcess true
      else interactiveProcess false { g with interactiveBuff := g.interactiveBuff ++ b }
  | .error => { g with registered := false }

/-- The console as a machine: a notification calls the callback while the event is registered. -/
def notify (g : Console) (r : ReadResult) : Console :=
  if g.registered then g.onReadInteractiveCb r else g

/-- A stream that arrives in some reads, and notifications of its end. -/
def session (reads : List Str) (eofs : ℕ) : Console :=
  ((reads ++ List.replicate eofs []).map ReadResult.bytes).foldl notify {}

/-! ### The commands of a stream -/

/-- The command lines of a stream: what stands between its line ends, if it is not empty.  The last
one need not be ended. -/
def commands (s : Str) : List Str := (s.splitOnP isSeparator).filter fun l => !l.isEmpty

/-- The lines that the loop runs. -/
def looped (s : Str) : List Str := (lines isSeparator s).filter fun l => l.length > 1

/-- The lines that are ended and not empty. -/
def ended (s : Str) : List Str := (lines isSeparator s).filter fun l => !l.isEmpty

/-- The last line, if it is not empty. -/
def last (s : Str) : List Str :=
  if (leftover isSeparator s).isEmpty then [] else [leftover isSeparator s]

lemma commands_eq (s : Str) : commands s = ended s ++ last s := by
  rw [commands, splitOnP_eq_lines, List.filter_append, last, ended]
  cases h : (leftover isSeparator s).isEmpty with
  | true => simp [h]
  | false => simp [h]

lemma looped_eq_filter_ended (s : Str) : looped s = (ended s).filter fun l => l.length > 1 := by
  rw [looped, ended, List.filter_filter]
  refine List.filter_congr fun l _ => ?_
  cases l <;> simp

lemma length_looped_le (s : Str) : (looped s).length ≤ (ended s).length := by
  rw [looped_eq_filter_ended]
  exact List.length_filter_le _ _

/-- The loop runs all lines that are ended if none of them has one character only. -/
lemma looped_eq_iff (s : Str) :
    looped s = ended s ↔ ∀ l ∈ lines isSeparator s, l.length ≠ 1 := by
  rw [looped_eq_filter_ended, List.filter_eq_self, ended]
  simp only [List.mem_filter, Bool.not_eq_true', List.isEmpty_eq_false_iff, decide_eq_true_eq,
    and_imp, gt_iff_lt]
  refine forall₂_congr fun l _ => ?_
  rw [← List.length_pos_iff]
  omega

/-- Copies of a line behind the lines that the loop runs: the line has one character. -/
lemma ended_eq_append_iff (s : Str) {x : Str} (hx : x ≠ []) (n : ℕ) :
    ended s = looped s ++ List.replicate (n + 1) x ↔
      x.length = 1 ∧
        ∃ ls, (∀ l ∈ ls, 1 < l.length) ∧ ended s = ls ++ List.replicate (n + 1) x := by
  have hpos : 0 < x.length := List.length_pos_iff.2 hx
  constructor
  · intro h
    have hlong : ∀ l ∈ looped s, 1 < l.length := fun l hl => by simpa using (List.mem_filter.1 hl).2
    refine ⟨?_, looped s, hlong, h⟩
    -- a longer line would be run by the loop itself
    by_contra hlen
    have hlooped := looped_eq_filter_ended s
    rw [h, List.filter_append, List.filter_eq_self.2 (by simpa using hlong),
      List.filter_replicate_of_pos (by simp; omega)] at hlooped
    simp at hlooped
  · rintro ⟨hlen, ls, hls, h⟩
    have hlooped : looped s = ls := by
      rw [looped_eq_filter_ended, h, List.filter_append,
        List.filter_eq_self.2 (by simpa using hls), List.filter_replicate_of_neg (by simp [hlen]),
        List.append_nil]
    rw [hlooped, h]

/-! ### What the callbacks do -/

lemma foldl_runLine (g : Console) (ls : List Str) :
    ls.foldl runLine g = { g with calls := g.calls ++ ls.filter fun l => l.length > 1 } := by
  induction ls generalizing g with
  | nil => simp
  | cons l ls ih =>
      rw [List.foldl_cons, ih, runLine]
      by_cases hl : l.length > 1
      · simp [hl, interactiveCmd]
      · simp [hl]

/-- The lines are run, then perhaps the last one, which stays in the buffer. -/
lemma interactiveProcess_eq (flush : Bool) (g : Console) :
    g.interactiveProcess flush = { g with
      interactiveBuff := leftover isSeparator g.interactiveBuff
      calls := g.calls ++ looped g.interactiveBuff ++
        if flush then last g.interactiveBuff else [] } := by
  rw [interactiveProcess]
  split
  · next hnil =>
      obtain ⟨b, r, calls⟩ := g
      obtain rfl := List.isEmpty_iff.1 hnil
      cases flush <;> simp [looped, last, lines, leftover]
  · rw [eachLine_eq runLine g (by simp), List.nil_append, foldl_runLine]
    simp only [last, looped]
    cases flush with
    | false => simp
    | true =>
        cases h : (leftover isSeparator g.interactiveBuff).isEmpty with
        | true => simp
        | false => simp [interactiveCmd]

/-- The console after the stream `s` and `n` notifications of its end. -/
structure After (g : Console) (s : Str) (n : ℕ) : Prop where
  registered : g.registered = true
  buff : g.interactiveBuff = leftover isSeparator s
  calls : g.calls = looped s ++ (List.replicate n (last s)).flatten

variable {g : Console} {s : Str} {n : ℕ}

lemma after_nil : After {} [] 0 := ⟨rfl, rfl, rfl⟩

lemma looped_append (s b : Str) :
    looped (s ++ b) = looped s ++ looped (leftover isSeparator s ++ b) := by
  rw [looped, lines_append, List.filter_append]
  rfl

lemma After.bytes (h : After g s 0) {b : Str} (hb : b ≠ []) :
    After (g.notify (.bytes b)) (s ++ b) 0 := by
  rw [notify, if_pos h.registered, onReadInteractiveCb, if_neg (by simpa using hb),
    interactiveProcess_eq]
  refine ⟨h.registered, ?_, ?_⟩
  · rw [h.buff, ← leftover_append]
  · rw [h.buff, h.calls, looped_append s b]
    simp

/-- The last line is run, and stays in the buffer. -/
lemma After.eof (h : After g s n) : After (g.notify (.bytes [])) s (n + 1) := by
  have hfree := not_separator_leftover isSeparator s
  have hlooped : looped (leftover isSeparator s) = [] := by rw [looped, lines_of_forall hfree]; rfl
  have hlast : last (leftover isSeparator s) = last s := by
    rw [last, leftover_of_forall hfree, last]
  rw [notify, if_pos h.registered, onReadInteractiveCb, if_pos List.isEmpty_nil,
    interactiveProcess_eq]
  refine ⟨h.registered, ?_, ?_⟩
  · rw [h.buff, leftover_of_forall hfree]
  · rw [h.buff, h.calls, hlooped, hlast, List.replicate_succ']
    simp

lemma After.reads (h : After g s 0) {reads : List Str} (hreads : ∀ b ∈ reads, b ≠ []) :
    After ((reads.map ReadResult.bytes).foldl notify g) (s ++ reads.flatten) 0 := by
  induction reads generalizing g s with
  | nil => simpa using h
  | cons b reads ih =>
      obtain ⟨hb, hreads⟩ := List.forall_mem_cons.1 hreads
      rw [List.map_cons, List.foldl_cons, List.flatten_cons, ← List.append_assoc]
      exact ih (h.bytes hb) hreads

lemma After.eofs (h : After g s n) (m : ℕ) :
    After (((List.replicate m []).map ReadResult.bytes).foldl notify g) s (n + m) := by
  induction m generalizing g n with
  | zero => exact h
  | succ m ih =>
      rw [List.replicate_succ, List.map_cons, List.foldl_cons, ← Nat.add_assoc,
        Nat.add_right_comm]
      exact ih h.eof

/-- The calls of a session: the lines of more than one character, then the last line as often as the
end of the input is notified. -/
lemma calls_session {reads : List Str} (hreads : ∀ b ∈ reads, b ≠ []) (eofs : ℕ) :
    (session reads eofs).calls =
      looped reads.flatten ++ (List.replicate eofs (last reads.flatten)).flatten := by
  have h := (after_nil.reads hreads).eofs eofs
  rw [List.nil_append, Nat.zero_add] at h
  rw [session, List.map_append, List.foldl_append]
  exact h.calls

/-! ### Every command once -/

/-- The calls when a last line follows. -/
lemma calls_last_iff {s x : Str} (hx : x ≠ []) (n : ℕ) :
    looped s ++ (List.replicate n [x]).flatten = ended s ++ [x] ↔
      ((∀ l ∈ lines isSeparator s, l.length ≠ 1) ∧ n = 1) ∨
        (2 ≤ n ∧ x.length = 1 ∧
          ∃ ls, (∀ l ∈ ls, 1 < l.length) ∧ ended s = ls ++ List.replicate (n - 1) x) := by
  cases n with
  | zero =>
      -- the last line is missing
      have hle := length_looped_le s
      refine ⟨fun h => ?_, by simp⟩
      have hlen := congrArg List.length h
      simp at hlen
      omega
  | succ n =>
      have hflat : (List.replicate (n + 1) [x]).flatten = List.replicate n x ++ [x] := by
        rw [List.replicate_succ', List.flatten_append]
        simp
      rw [hflat, ← List.append_assoc, List.append_cancel_right_eq]
      cases n with
      | zero => simp [looped_eq_iff]
      | succ n =>
          rw [eq_comm, ended_eq_append_iff s hx n]
          simp

/-- Every command is run once exactly in two cases.  No line that is ended has one character only,
and the end of the input is notified once or the stream does not end within a line; or the lines of
one character that the loop skips are made up for: they stand behind the others, they are copies of
the last line, and there is one further notification for each of them. -/
theorem calls_eq_commands_iff {reads : List Str} (hreads : ∀ b ∈ reads, b ≠ []) (eofs : ℕ) :
    (session reads eofs).calls = commands reads.flatten ↔
      ((∀ l ∈ lines isSeparator reads.flatten, l.length ≠ 1) ∧
          (eofs = 1 ∨ leftover isSeparator reads.flatten = [])) ∨
        (2 ≤ eofs ∧ (leftover isSeparator reads.flatten).length = 1 ∧
          ∃ ls, (∀ l ∈ ls, 1 < l.length) ∧
            ended reads.flatten =
              ls ++ List.replicate (eofs - 1) (leftover isSeparator reads.flatten)) := by
  rw [calls_session hreads, commands_eq, last]
  by_cases hnil : leftover isSeparator reads.flatten = []
  · simp [hnil, looped_eq_iff]
  · rw [if_neg (by simpa using hnil), calls_last_iff hnil]
    simp [hnil]

/-- Two commands in three reads, the last one not ended. -/
theorem calls_eq_commands_iff_status :
    (session [lit "ql", lit "en\r\nstat", lit "us"] 1).calls = commands (lit "qlen\r\nstatus") :=
  (calls_eq_commands_iff (by decide) 1).2 (Or.inl ⟨by decide, Or.inl rfl⟩)

-- the line that is skipped is made up for by the second notification
example : (session [lit "h\nh"] 2).calls = commands (lit "h\nh") := by decide

/-- The command `h` is not run, and a last line is run again with the second notification. -/
theorem not_calls_eq_commands :
    (session [lit "h\n"] 1).calls ≠ commands (lit "h\n") ∧
      (session [lit "status"] 2).calls ≠ commands (lit "status") := by
  decide

end Console

end Mycelium
