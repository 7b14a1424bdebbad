import Mycelium.Common.PathNormalize
import Mycelium.Lib.Machine

/-!
# The two cursors of `Path::assign`

`Path.assign` reads the text from left to right and keeps what lies between the iterators `begin`
and `end`.  The source moves the two iterators one after the other: it pushes a segment in a turn
that moves `end` over nothing, and only the next turn steps over the slash.  Here the loop is run on
offsets into the text.  It ends on every text, it pushes the segments of `Path.assign`, and the path
prints as the text with its runs of slashes collapsed.
-/

namespace Mycelium

open Lib

namespace Path

/-- How the loop stands: in a turn, after its `break`, or after the `return` of the safety check. -/
inductive Flow where
  | loops
  | broke
  | returned
deriving DecidableEq, Repr

/-- The local variables of `Path::assign`; `stop` is the iterator `end`. -/
structure Scanning where
  segmt : List Str := []
  depth : ℕ := 0
  begin : ℕ
  stop : ℕ
  flow : Flow := .loops
deriving DecidableEq, Repr

namespace Scanning

/-- The text of `[begin,end)`. -/
def str (v : Scanning) (s : Str) : Str := (s.take v.stop).drop v.begin

/-- `segmt.push_back(str); ++depth; begin = end;`. -/
def push (v : Scanning) (s : Str) : Scanning :=
  { v with
    segmt := v.segmt ++ [v.str s]
    depth := v.depth + 1
    begin := v.stop }

/-- What a turn does at a character. -/
def read (v : Scanning) (s : Str) (c : UInt8) : Scanning :=
  if c = Byte.slash then
    if v.stop ≠ v.begin then v.push s
    else { v with begin := v.stop + 1, stop := v.stop + 1 }
  else { v with stop := v.stop + 1 }

/-- The safety check. -/
def check (v : Scanning) (maxSize : ℕ) : Scanning :=
  if v.depth ≥ maxSize then { v with flow := .returned } else v

/-- One turn of the loop; `none` when `end` is read beyond the text. -/
def turn (maxSize : ℕ) (s : Str) (v : Scanning) : Option Scanning :=
  if v.stop = s.length then
    some { (if v.stop ≠ v.begin then v.push s else v) with flow := .broke }
  else do
    let c ← s[v.stop]?
    some ((v.read s c).check maxSize)

end Scanning

/-- A path as `Path::assign` builds it, with any strings for segments. -/
structure Raw where
  segmt : List Str := []
  slashEnd : Bool := false
  slashBegin : Bool := false
deriving DecidableEq, Repr

/-- The members of a path. -/
def raw (p : Path) : Raw where
  segmt := p.segmt.map Subtype.val
  slashEnd := p.slashEnd
  slashBegin := p.slashBegin

/-- `Path::assign` with its iterators; `maxSize` is `segmt.max_size()`.  The result is `none` when
an iterator is read beyond the text or the loop takes more turns than `fuel` says. -/
def assignRun (maxSize fuel : ℕ) (s : Str) : Option Raw :=
  if s = [] then some {}
  else do
    let c ← s[0]?
    let start := if c = Byte.slash then 1 else 0
    let v ← whileM (fun v => v.flow == .loops) (Scanning.turn maxSize s) fuel
      { begin := start, stop := start }
    if v.flow = .returned then some { segmt := v.segmt, slashBegin := c == Byte.slash }
    else do
      let last ← s[s.length - 1]?
      some { segmt := v.segmt, slashBegin := c == Byte.slash, slashEnd := last == Byte.slash }

/-! ### A turn of the loop -/

/-- What the loop has done when it has pushed `segs` in the end; the number bounds the turns that
are left.  A turn that pushes a segment leaves `end` where it is, and `begin` catches up with it. -/
structure Scans (maxSize : ℕ) (s : Str) (segs : List Str) (m : ℕ) (v : Scanning) : Prop where
  begin_le : v.begin ≤ v.stop
  end_le : v.stop ≤ s.length
  depth_le : v.depth ≤ v.begin
  turns : v.flow = .loops → 2 * (s.length - v.stop) + (if v.begin < v.stop then 1 else 0) < m
  loops : v.flow = .loops → ∃ h : Byte.slash ∉ v.str s,
    v.segmt ++ (assignLoop (v.str s) h (s.drop v.stop)).map Subtype.val = segs
  broke : v.flow = .broke → v.segmt = segs
  returned : v.flow = .returned → maxSize ≤ v.depth

section

variable {maxSize m : ℕ} {s : Str} {segs : List Str} {v : Scanning} {c : UInt8}

lemma Scanning.str_eq_nil_iff (hbegin : v.begin ≤ v.stop) (hend : v.stop ≤ s.length) :
    v.str s = [] ↔ v.begin = v.stop := by
  rw [Scanning.str, List.drop_eq_nil_iff, List.length_take, Nat.min_eq_left hend]
  omega

lemma Scanning.str_concat (hbegin : v.begin ≤ v.stop) (hc : s[v.stop]? = some c) :
    { v with stop := v.stop + 1 }.str s = v.str s ++ [c] := by
  obtain ⟨hlt, rfl⟩ := List.getElem?_eq_some_iff.1 hc
  simp only [Scanning.str]
  rw [List.take_add_one, List.drop_append_of_le_length (by rw [List.length_take]; omega),
    List.getElem?_eq_getElem hlt, Option.toList_some]

lemma Scanning.str_self (v : Scanning) (h : v.begin = v.stop) (s : Str) : v.str s = [] := by
  rw [Scanning.str, h, List.drop_eq_nil_iff, List.length_take]
  omega

lemma Scans.check (h : Scans maxSize s segs m v) : Scans maxSize s segs m (v.check maxSize) := by
  rw [Scanning.check]
  split
  · next hdepth =>
      exact
        { begin_le := h.begin_le
          end_le := h.end_le
          depth_le := h.depth_le
          turns := fun habs => absurd habs (by simp)
          loops := fun habs => absurd habs (by simp)
          broke := fun habs => absurd habs (by simp)
          returned := fun _ => hdepth }
  · exact h

/-- What is left to do behind `end` decides the rest of the invariant while the loop runs. -/
lemma Scans.of_loops (hbegin : v.begin ≤ v.stop) (hend : v.stop ≤ s.length)
    (hdepth : v.depth ≤ v.begin) (hflow : v.flow = .loops) (hslash : Byte.slash ∉ v.str s)
    (hsegs : v.segmt ++ (assignLoop (v.str s) hslash (s.drop v.stop)).map Subtype.val = segs) :
    Scans maxSize s segs (2 * (s.length - v.stop) + (if v.begin < v.stop then 1 else 0) + 1) v where
  begin_le := hbegin
  end_le := hend
  depth_le := hdepth
  turns _ := Nat.lt_succ_self _
  loops _ := ⟨hslash, hsegs⟩
  broke habs := absurd (hflow.symm.trans habs) (by simp)
  returned habs := absurd (hflow.symm.trans habs) (by simp)

/-- The last turn pushes what is left. -/
lemma Scans.turn_end (h : Scans maxSize s segs m v) (hflow : v.flow = .loops)
    (hend : v.stop = s.length) :
    ∃ k t, k < m ∧ v.turn maxSize s = some t ∧ Scans maxSize s segs k t := by
  obtain ⟨hslash, hsegs⟩ := h.loops hflow
  have hm := h.turns hflow
  have hbegin := h.begin_le
  have hdepth := h.depth_le
  rw [hend, List.drop_length] at hsegs
  refine ⟨0, _, by omega, by rw [Scanning.turn, if_pos hend], ?_⟩
  by_cases hne : v.stop = v.begin
  · rw [assignLoop, dif_pos (v.str_self hne.symm s), List.map_nil, List.append_nil] at hsegs
    rw [if_neg (not_not_intro hne)]
    exact
      { begin_le := hbegin
        end_le := h.end_le
        depth_le := hdepth
        turns := fun habs => absurd habs (by simp)
        loops := fun habs => absurd habs (by simp)
        broke := fun _ => hsegs
        returned := fun habs => absurd habs (by simp) }
  · have hstr : v.str s ≠ [] :=
      fun habs => hne ((Scanning.str_eq_nil_iff hbegin h.end_le).1 habs).symm
    rw [assignLoop, dif_neg hstr] at hsegs
    rw [if_pos hne]
    exact
      { begin_le := le_refl _
        end_le := h.end_le
        depth_le := by simp only [Scanning.push]; omega
        turns := fun habs => absurd habs (by simp)
        loops := fun habs => absurd habs (by simp)
        broke := fun _ => hsegs
        returned := fun habs => absurd habs (by simp) }

/-- A turn before the end of the text. -/
lemma Scans.read (h : Scans maxSize s segs m v) (hflow : v.flow = .loops)
    (hc : s[v.stop]? = some c) : ∃ k < m, Scans maxSize s segs k (v.read s c) := by
  obtain ⟨hslash, hsegs⟩ := h.loops hflow
  have hm := h.turns hflow
  have hbegin := h.begin_le
  have hdepth := h.depth_le
  have hlt : v.stop < s.length := (List.getElem?_eq_some_iff.1 hc).1
  have hdrop : s.drop v.stop = c :: s.drop (v.stop + 1) := by
    rw [List.drop_eq_getElem_cons hlt,
      Option.some.inj ((List.getElem?_eq_getElem hlt).symm.trans hc)]
  by_cases hslashc : c = Byte.slash
  · by_cases hne : v.stop = v.begin
    · -- both cursors step over the slash
      have hread : v.read s c = { v with begin := v.stop + 1, stop := v.stop + 1 } := by
        rw [Scanning.read, if_pos hslashc, if_neg (not_not_intro hne)]
      have hstr := { v with begin := v.stop + 1, stop := v.stop + 1 }.str_self rfl s
      rw [hdrop, assignLoop, dif_pos hslashc, dif_pos (v.str_self hne.symm s)] at hsegs
      rw [hread]
      refine ⟨_, ?_, .of_loops (le_refl _) hlt (by simp only; omega) hflow (by simp [hstr]) ?_⟩
      · simp only [Nat.lt_irrefl, if_false]
        omega
      · simp only [hstr]
        exact hsegs
    · -- the segment is pushed, and the slash is left for the next turn
      have hread : v.read s c = v.push s := by
        rw [Scanning.read, if_pos hslashc, if_pos hne]
      have hstr : v.str s ≠ [] :=
        fun habs => hne ((Scanning.str_eq_nil_iff hbegin h.end_le).1 habs).symm
      have hstr' := (v.push s).str_self rfl s
      rw [hdrop, assignLoop, dif_pos hslashc, dif_neg hstr] at hsegs
      rw [hread]
      refine ⟨_, ?_, .of_loops (le_refl _) h.end_le ?_ hflow (by simp [hstr']) ?_⟩
      · rw [if_pos (by omega)] at hm
        simp only [Scanning.push, Nat.lt_irrefl, if_false]
        omega
      · simp only [Scanning.push]
        omega
      · simp only [hstr']
        rw [show s.drop (v.push s).stop = c :: s.drop (v.stop + 1) from hdrop, assignLoop,
          dif_pos hslashc, dif_pos rfl, ← hsegs]
        simp [Scanning.push]
  · have hread : v.read s c = { v with stop := v.stop + 1 } := by
      rw [Scanning.read, if_neg hslashc]
    have hstr := Scanning.str_concat hbegin hc
    rw [hdrop, assignLoop, dif_neg hslashc] at hsegs
    rw [hread]
    refine ⟨_, ?_, .of_loops (by simp only; omega) hlt hdepth hflow
      (by simp [hstr, hslash, Ne.symm hslashc]) ?_⟩
    · rw [if_pos (by simp only; omega)]
      simp only
      split at hm <;> omega
    · simp only [hstr]
      exact hsegs

lemma Scans.turn (h : Scans maxSize s segs m v) (hflow : v.flow = .loops) :
    ∃ k t, k < m ∧ v.turn maxSize s = some t ∧ Scans maxSize s segs k t := by
  by_cases hend : v.stop = s.length
  · exact h.turn_end hflow hend
  · have hlt : v.stop < s.length := Nat.lt_of_le_of_ne h.end_le hend
    have hc := List.getElem?_eq_getElem hlt
    obtain ⟨k, hk, hread⟩ := h.read hflow hc
    exact ⟨k, _, hk, by rw [Scanning.turn, if_neg hend, hc]; rfl, hread.check⟩

end

/-! ### The loop -/

/-- The loop of `assign` ends, and it pushes the segments of `Path.assign` when the safety check
does not stop it. -/
lemma assignRun_total (maxSize : ℕ) {fuel : ℕ} {s : Str} (hfuel : 2 * s.length + 1 ≤ fuel) :
    ∃ p, assignRun maxSize fuel s = some p ∧ (s.length < maxSize → p = (assign s).raw) := by
  cases s with
  | nil => exact ⟨{}, rfl, fun _ => rfl⟩
  | cons c t =>
      obtain ⟨start, hstart⟩ : ∃ n, n = if c = Byte.slash then 1 else 0 := ⟨_, rfl⟩
      have hle : start ≤ (c :: t).length := by
        rw [hstart]
        split <;> simp
      have hrest : (c :: t).drop start = if c = Byte.slash then t else c :: t := by
        rw [hstart]
        split <;> rfl
      have hinit : Scans maxSize (c :: t) ((assign (c :: t)).segmt.map Subtype.val)
          (2 * ((c :: t).length - start) + (if start < start then 1 else 0) + 1)
          { begin := start, stop := start } := by
        have hstr := Scanning.str_self { begin := start, stop := start } rfl (c :: t)
        refine Scans.of_loops (v := { begin := start, stop := start }) (le_refl _) hle
          (Nat.zero_le _) rfl (by rw [hstr]; exact List.not_mem_nil) ?_
        simp only [hstr, hrest, List.nil_append]
        rfl
      obtain ⟨k, v, hrun, hv, hcond⟩ :
          ∃ k v, whileM (fun v => v.flow == .loops) (Scanning.turn maxSize (c :: t)) fuel
              { begin := start, stop := start } = some v ∧
            Scans maxSize (c :: t) ((assign (c :: t)).segmt.map Subtype.val) k v ∧
            (v.flow == .loops) = false :=
        whileM_total (fun m v hv hc => hv.turn (by simpa using hc)) hinit
          (by rw [if_neg (Nat.lt_irrefl _)]; omega)
      have hlast : (c :: t)[(c :: t).length - 1]?
          = some ((c :: t).getLast (List.cons_ne_nil c t)) := by
        rw [← List.getLast?_eq_getElem?, List.getLast?_eq_some_getLast]
      have hres : assignRun maxSize fuel (c :: t) =
          if v.flow = .returned then some { segmt := v.segmt, slashBegin := c == Byte.slash }
          else some
            { segmt := v.segmt
              slashBegin := c == Byte.slash
              slashEnd := (c :: t).getLast (List.cons_ne_nil c t) == Byte.slash } := by
        rw [assignRun, if_neg (List.cons_ne_nil c t)]
        simp only [List.getElem?_cons_zero, Option.bind_eq_bind, Option.bind_some, ← hstart, hrun,
          hlast]
      cases hflow : v.flow with
      | loops => exact absurd hcond (by simp [hflow])
      | broke =>
          refine ⟨_, by rw [hres, if_neg (by simp [hflow])], fun _ => ?_⟩
          rw [hv.broke hflow]
          rfl
      | returned =>
          refine ⟨_, by rw [hres, if_pos hflow], fun hlt => ?_⟩
          have hdepth := hv.returned hflow
          have hbegin := hv.depth_le
          have hend := hv.begin_le
          have hlen := hv.end_le
          omega

/-! ### The text -/

lemma assignLoop_ne_nil {cur : Str} (h : cur ≠ []) (hcur : Byte.slash ∉ cur) (s : Str) :
    assignLoop cur hcur s ≠ [] := by
  induction s generalizing cur with
  | nil => simp [assignLoop, h]
  | cons c s ih =>
      rw [assignLoop]
      split
      · exact List.cons_ne_nil _ _
      · exact ih (by simp) _

/-- The text of a path that was read is the text with its runs of slashes collapsed. -/
lemma get_assign (s : Str) : (assign s).get = collapse s := by
  cases s with
  | nil => rfl
  | cons c t =>
      by_cases hc : c = Byte.slash
      · exact (get_assign_absolute (by rw [hc]; rfl)).1
      · -- a relative path is read as the absolute path with a slash in front of it
        have habs := (get_assign_absolute (s := Byte.slash :: c :: t) rfl).1
        have hsegmt : (assign (Byte.slash :: c :: t)).segmt = (assign (c :: t)).segmt := by
          simp [assign, hc]
        have hend : (assign (Byte.slash :: c :: t)).slashEnd = (assign (c :: t)).slashEnd := by
          simp [assign]
        have hne : (assign (c :: t)).segmt ≠ [] := by
          simp only [assign, if_neg hc]
          rw [assignLoop, dif_neg hc]
          exact assignLoop_ne_nil (by simp) _ t
        rw [collapse, if_neg (by simp [hc]), get_of_segmt_ne_nil (hsegmt ▸ hne), hsegmt, hend,
          show (assign (Byte.slash :: c :: t)).slashBegin = true from rfl, if_pos rfl,
          List.singleton_append, List.cons_append] at habs
        rw [get_of_segmt_ne_nil hne, ← (List.cons.inj habs).2,
          show (assign (c :: t)).slashBegin = false from beq_eq_false_iff_ne.2 hc,
          if_neg (by simp), List.nil_append]

/-- The loop of `Path::assign` ends on every text.  The path that it makes prints as the text with
every run of slashes collapsed to one, and `size` is the length of that. -/
theorem assign_collapses (s : Str) :
    (assign s).get = collapse s ∧ (assign s).size = (collapse s).length ∧
      ∀ maxSize fuel, 2 * s.length + 1 ≤ fuel →
        ∃ p, assignRun maxSize fuel s = some p ∧ (s.length < maxSize → p = (assign s).raw) :=
  ⟨get_assign s, by rw [size_eq_length_get, get_assign],
    fun maxSize _ hfuel => assignRun_total maxSize hfuel⟩

theorem assign_collapses_relative :
    (assign (lit "a//b/")).get = lit "a/b/" ∧ (assign (lit "a//b/")).size = 4 ∧
      assignRun 100 11 (lit "a//b/") = some (assign (lit "a//b/")).raw := by
  obtain ⟨hget, hsize, hrun⟩ := assign_collapses (lit "a//b/")
  obtain ⟨p, hp, hraw⟩ := hrun 100 11 (by decide)
  exact ⟨hget, hsize, by rw [hp, hraw (by decide)]⟩

end Path

end Mycelium
