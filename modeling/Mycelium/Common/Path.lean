import Mycelium.Common.Escape
import Mycelium.Lib.Cut

/-!
# Paths

`Path` keeps a path as a list of segments and two flags, for a slash at the beginning and one at
the end.  A segment is never empty and contains no slash: `assign` cuts the text at the slashes
and drops what is empty, and the other operations only remove, copy or add whole segments.
-/

namespace Mycelium

open Lib

/-- A segment of a path. -/
abbrev Segment := {s : Str // s ≠ [] ∧ Byte.slash ∉ s}

namespace Segment

/-- The segment `.`. -/
def dot : Segment := ⟨lit ".", by decide⟩

/-- The segment `..`. -/
def dotdot : Segment := ⟨lit "..", by decide⟩

end Segment

/-- `class Path`. -/
structure Path where
  segmt : List Segment := []
  slashEnd : Bool := false
  slashBegin : Bool := false
deriving DecidableEq, Repr

namespace Path

/-! ### The member functions -/

/-- `Path::empty`. -/
def empty (p : Path) : Bool := !p.slashEnd && p.segmt.isEmpty && !p.slashBegin

/-- `Path::get`. -/
def get (p : Path) : Str :=
  if p.empty then []
  else if p.segmt.length > 0 then
    let start := if p.slashBegin then [Byte.slash] else []
    let joined := p.segmt.foldl (fun result j => result ++ j.val ++ [Byte.slash]) start
    -- the loop has left a slash after the last segment
    let cut := joined.dropLast
    let result := if p.slashEnd then cut ++ [Byte.slash] else cut
    if result = [Byte.slash, Byte.slash] then [Byte.slash] else result
  else if p.slashBegin || p.slashEnd then [Byte.slash]
  else []

/-- `Path::size`. -/
def size (p : Path) : ℕ :=
  if p.empty then 0
  else if p.segmt.length > 0 then
    let start := if p.slashBegin then 1 else 0
    let size := p.segmt.foldl (fun size i => size + i.val.length) start
    let size := if p.slashEnd then size + 1 else size
    -- the slashes between the segments
    size + (p.segmt.length - 1)
  else if p.slashBegin || p.slashEnd then 1
  else 0

/-- The scanning loop of `Path::assign`; `cur` is the text between its two iterators.  The source
takes one turn more after it has pushed a segment, to step over the slash. -/
def assignLoop (cur : Str) (hcur : Byte.slash ∉ cur) : Str → List Segment
  | [] => if h : cur = [] then [] else [⟨cur, h, hcur⟩]
  | c :: s =>
      if hc : c = Byte.slash then
        if h : cur = [] then assignLoop [] (by simp) s
        else ⟨cur, h, hcur⟩ :: assignLoop [] (by simp) s
      else assignLoop (cur ++ [c]) (by simp [hcur, Ne.symm hc]) s

/-- `Path::assign`. -/
def assign (s : Str) : Path :=
  match s with
  | [] => {}
  | c :: rest =>
      { segmt := assignLoop [] (by simp) (if c = Byte.slash then rest else c :: rest)
        slashBegin := c == Byte.slash
        slashEnd := (c :: rest).getLast (by simp) == Byte.slash }

/-- `Path::absolute(a)`. -/
def setAbsolute (p : Path) (a : Bool) : Path := { p with slashBegin := a }

/-- One turn of the loop of `Path::merge`, on the segments and the end flag. -/
def mergeStep (acc : List Segment × Bool) (i : Segment) : List Segment × Bool :=
  if i = Segment.dot then (acc.1, true)
  else if i = Segment.dotdot then
    if acc.1.isEmpty then acc else (acc.1.dropLast, true)
  else (acc.1 ++ [i], false)

/-- `Path::merge`. -/
def merge (this p : Path) : Path :=
  if p.slashBegin then p
  else
    let segmt :=
      -- the file element at the end
      if !this.slashEnd && !this.segmt.isEmpty && !p.empty then this.segmt.dropLast
      else this.segmt
    let r := p.segmt.foldl mergeStep (segmt, this.slashEnd)
    { this with segmt := r.1, slashEnd := r.2 || p.slashEnd }

/-- The loop of `Path::normalize`.  `before` are the segments before the iterator `i`, the last
one first, so that its head is the segment under `j`; the list is the segments from `i` on. -/
def normalizeLoop (before : List Segment) (slashEnd : Bool) : List Segment → List Segment × Bool
  | [] => (before.reverse, slashEnd)
  | i :: rest =>
      match before with
      | j :: before' =>
          if i = Segment.dotdot ∧ j ≠ Segment.dotdot ∧ j ≠ Segment.dot then
            normalizeLoop before' (slashEnd || rest.isEmpty) rest
          else if i = Segment.dot then normalizeLoop before (slashEnd || rest.isEmpty) rest
          else normalizeLoop (i :: before) slashEnd rest
      | [] =>
          -- `j` has caught up with `i`
          if i = Segment.dot then normalizeLoop [] (slashEnd || rest.isEmpty) rest
          else normalizeLoop [i] slashEnd rest

/-- `Path::normalize`.  The loop starts at the second segment.  On a path without segments the
source increments the end iterator, which leaves it where it is in the circular list of
libstdc++. -/
def normalize (p : Path) : Path :=
  match p.segmt with
  | [] => p
  | first :: rest =>
      let r := normalizeLoop [first] p.slashEnd rest
      { p with segmt := r.1, slashEnd := r.2 }

/-! ### The text of a path -/

/-- The segments with a slash between them. -/
def join : List Segment → Str
  | [] => []
  | [s] => s.val
  | s :: rest => s.val ++ Byte.slash :: join rest

lemma join_cons {rest : List Segment} (h : rest ≠ []) (s : Segment) :
    join (s :: rest) = s.val ++ Byte.slash :: join rest := by
  cases rest with
  | nil => exact absurd rfl h
  | cons t rest => rfl

lemma join_ne_nil {segs : List Segment} (h : segs ≠ []) : join segs ≠ [] := by
  match segs, h with
  | [s], _ => exact s.property.1
  | s :: t :: rest, _ => simp [join]

/-- The loop of `get` writes the segments with a slash after each of them. -/
lemma foldl_eq_join {segs : List Segment} (h : segs ≠ []) (start : Str) :
    segs.foldl (fun result j => result ++ j.val ++ [Byte.slash]) start
      = start ++ join segs ++ [Byte.slash] := by
  induction segs generalizing start with
  | nil => exact absurd rfl h
  | cons s rest ih =>
      cases rest with
      | nil => simp [join]
      | cons t rest =>
          rw [List.foldl_cons, ih (by simp), join_cons (List.cons_ne_nil t rest)]
          simp

lemma get_of_segmt_eq_nil {p : Path} (h : p.segmt = []) :
    p.get = if p.slashBegin || p.slashEnd then [Byte.slash] else [] := by
  by_cases hb : p.slashBegin <;> by_cases he : p.slashEnd <;> simp [get, empty, h, hb, he]

/-- The correction of a text `//` in `get` is never needed: a segment stands in between. -/
lemma get_of_segmt_ne_nil {p : Path} (h : p.segmt ≠ []) :
    p.get = (if p.slashBegin then [Byte.slash] else []) ++ join p.segmt
      ++ (if p.slashEnd then [Byte.slash] else []) := by
  have hempty : p.empty = false := by simp [empty, h]
  have hlen : p.segmt.length > 0 := List.length_pos_iff.2 h
  -- what tells the text from `//`
  obtain ⟨c, hc, hne⟩ : ∃ c ∈ join p.segmt, c ≠ Byte.slash := by
    obtain ⟨s, rest, hs⟩ := List.exists_cons_of_ne_nil h
    obtain ⟨c, t, hct⟩ := List.exists_cons_of_ne_nil s.property.1
    refine ⟨c, ?_, ?_⟩
    · cases rest with
      | nil => simp [hs, join, hct]
      | cons s' rest => simp [hs, join, hct]
    · rintro rfl
      exact s.property.2 (by simp [hct])
  rw [get, hempty, if_neg (by simp), if_pos hlen]
  simp only [foldl_eq_join h, List.dropLast_concat]
  rw [if_neg]
  · by_cases he : p.slashEnd <;> simp [he]
  · intro habs
    have hmem : c ∈ [Byte.slash, Byte.slash] := by
      rw [← habs]
      by_cases he : p.slashEnd <;> simp [he, hc]
    simp [hne] at hmem

lemma get_eq_nil_iff {p : Path} : p.get = [] ↔ p.empty = true := by
  by_cases h : p.segmt = []
  · rw [get_of_segmt_eq_nil h]
    by_cases hb : p.slashBegin <;> by_cases he : p.slashEnd <;> simp [empty, h, hb, he]
  · rw [get_of_segmt_ne_nil h]
    simp [empty, h, join_ne_nil h]

lemma length_join {segs : List Segment} (h : segs ≠ []) (n : ℕ) :
    segs.foldl (fun size i => size + i.val.length) n + (segs.length - 1)
      = n + (join segs).length := by
  induction segs generalizing n with
  | nil => exact absurd rfl h
  | cons s rest ih =>
      cases rest with
      | nil => simp [join]
      | cons t rest =>
          have htail := ih (List.cons_ne_nil t rest) (n + s.val.length)
          rw [join_cons (List.cons_ne_nil t rest), List.foldl_cons]
          simp only [List.length_cons, List.length_append] at htail ⊢
          omega

/-- `size` is the length of the text that `get` makes room for. -/
lemma size_eq_length_get (p : Path) : p.size = p.get.length := by
  by_cases h : p.segmt = []
  · rw [get_of_segmt_eq_nil h]
    by_cases hb : p.slashBegin <;> by_cases he : p.slashEnd <;> simp [size, empty, h, hb, he]
  · have hempty : p.empty = false := by simp [empty, h]
    have hlen := length_join h (if p.slashBegin then 1 else 0)
    rw [get_of_segmt_ne_nil h, size, hempty, if_neg (by simp), if_pos (List.length_pos_iff.2 h)]
    by_cases hb : p.slashBegin <;> by_cases he : p.slashEnd <;>
      simp only [hb, he, if_true, if_false, Bool.false_eq_true, List.length_append,
        List.length_singleton, List.length_nil] at hlen ⊢ <;> omega

/-! ### Reading the text back -/

lemma assignLoop_append {t : Str} (ht : Byte.slash ∉ t) (cur : Str) (hcur : Byte.slash ∉ cur)
    (s : Str) : assignLoop cur hcur (t ++ s) = assignLoop (cur ++ t) (by simp [hcur, ht]) s := by
  induction t generalizing cur with
  | nil => simp
  | cons c t ih =>
      rw [List.mem_cons, not_or] at ht
      rw [List.cons_append, assignLoop, dif_neg (Ne.symm ht.1), ih ht.2]
      simp

lemma assignLoop_segment (x : Segment) (s : Str) :
    assignLoop [] (by simp) (x.val ++ Byte.slash :: s) = x :: assignLoop [] (by simp) s := by
  rw [assignLoop_append x.property.2, assignLoop, dif_pos rfl]
  simp [x.property.1]

lemma assignLoop_segment_end (x : Segment) : assignLoop [] (by simp) x.val = [x] := by
  have h := assignLoop_append x.property.2 [] (by simp) []
  rw [List.append_nil] at h
  rw [h]
  simp [assignLoop, x.property.1]

lemma assignLoop_join (segs : List Segment) (slashEnd : Bool) :
    assignLoop [] (by simp) (join segs ++ if slashEnd then [Byte.slash] else []) = segs := by
  induction segs with
  | nil => cases slashEnd <;> rfl
  | cons x rest ih =>
      cases rest with
      | nil =>
          cases slashEnd with
          | false =>
              simp only [join, Bool.false_eq_true, if_false, List.append_nil]
              exact assignLoop_segment_end x
          | true =>
              simp only [join, if_true]
              rw [assignLoop_segment]
              rfl
      | cons y rest =>
          rw [join_cons (by simp), List.append_assoc, List.cons_append, assignLoop_segment, ih]

lemma join_head_ne_slash {segs : List Segment} {c : UInt8} {t : Str} (h : join segs = c :: t) :
    c ≠ Byte.slash := by
  match segs, h with
  | s :: rest, h =>
      obtain ⟨d, u, hdu⟩ := List.exists_cons_of_ne_nil s.property.1
      have hd : d ≠ Byte.slash := by
        rintro rfl
        exact s.property.2 (by simp [hdu])
      cases rest with
      | nil =>
          rw [join, hdu, List.cons.injEq] at h
          exact h.1 ▸ hd
      | cons s' rest =>
          rw [join_cons (by simp), hdu, List.cons_append, List.cons.injEq] at h
          exact h.1 ▸ hd

lemma join_getLast_ne_slash {segs : List Segment} (h : join segs ≠ []) :
    (join segs).getLast h ≠ Byte.slash := by
  induction segs with
  | nil => exact absurd rfl h
  | cons s rest ih =>
      cases rest with
      | nil =>
          obtain ⟨x, hx⟩ : ∃ x, x = (join [s]).getLast h := ⟨_, rfl⟩
          have hmem : x ∈ s.val := hx ▸ List.getLast_mem h
          rw [← hx]
          rintro rfl
          exact s.property.2 hmem
      | cons s' rest =>
          have hne : join (s' :: rest) ≠ [] := join_ne_nil (by simp)
          have hlast : (join (s :: s' :: rest)).getLast h = (join (s' :: rest)).getLast hne := by
            simp only [join_cons (List.cons_ne_nil s' rest)]
            rw [List.getLast_append_of_ne_nil _ (List.cons_ne_nil _ _), List.getLast_cons hne]
          rw [hlast]
          exact ih hne

/-- The last character of the text of a path shows the end flag. -/
lemma getLast_eq_slash {segs : List Segment} (hsegs : segs ≠ []) (e : Bool) {t : Str}
    (ht : t = join segs ++ if e then [Byte.slash] else []) (h : t ≠ []) :
    (t.getLast h == Byte.slash) = e := by
  subst ht
  cases e with
  | true => simp
  | false =>
      have hl := join_getLast_ne_slash (join_ne_nil hsegs)
      simpa using hl

/-- Reading the text of a path that has a segment gives the path. -/
lemma assign_get {p : Path} (h : p.segmt ≠ []) : assign p.get = p := by
  obtain ⟨segs, e, b⟩ := p
  obtain ⟨t, ht⟩ : ∃ t, t = join segs ++ if e then [Byte.slash] else [] := ⟨_, rfl⟩
  have hne : t ≠ [] := by simp [ht, join_ne_nil h]
  have hloop : assignLoop [] (by simp) t = segs := ht ▸ assignLoop_join segs e
  have hlast := getLast_eq_slash h e ht hne
  rw [get_of_segmt_ne_nil h, List.append_assoc, ← ht]
  cases b with
  | true =>
      rw [if_pos rfl, List.singleton_append, assign]
      simp only [if_true, beq_self_eq_true, List.getLast_cons hne, hloop, hlast]
  | false =>
      obtain ⟨c, u, hcu⟩ := List.exists_cons_of_ne_nil (join_ne_nil h)
      have hc := join_head_ne_slash hcu
      rw [if_neg (by simp), List.nil_append]
      rw [hcu, List.cons_append] at ht
      subst ht
      simp only [assign, hc, if_false, hloop, hlast]
      simp [hc]

/-- Reading the text of a path back does not change the text. -/
lemma get_assign_get (p : Path) : (assign p.get).get = p.get := by
  by_cases h : p.segmt = []
  · rw [get_of_segmt_eq_nil h]
    split
    · rfl
    · rfl
  · rw [assign_get h]

/-! ### Properties of the text that hold piecewise -/

/-- A property of texts that holds of a text cut at a slash when it holds of both pieces. -/
structure SlashLocal (P : Str → Prop) : Prop where
  nil : P []
  split : ∀ x y, P (x ++ Byte.slash :: y) ↔ P x ∧ P y

namespace SlashLocal

variable {P : Str → Prop}

lemma assignLoop (hP : SlashLocal P) {s cur : Str} (hcur : Byte.slash ∉ cur) (h : P (cur ++ s)) :
    ∀ x ∈ assignLoop cur hcur s, P x.val := by
  induction s generalizing cur with
  | nil =>
      rw [List.append_nil] at h
      intro x hx
      rw [Path.assignLoop] at hx
      split at hx
      · exact absurd hx List.not_mem_nil
      · rw [List.mem_singleton.1 hx]
        exact h
  | cons c s ih =>
      rw [Path.assignLoop]
      by_cases hc : c = Byte.slash
      · -- the text is cut here: `cur` is a segment, or empty
        subst hc
        obtain ⟨hx, hs⟩ := (hP.split cur s).1 h
        have hrest : ∀ y ∈ Path.assignLoop [] (by simp) s, P y.val := ih (by simp) hs
        rw [dif_pos rfl]
        split
        · exact hrest
        · rintro y (_ | ⟨_, hy⟩)
          · exact hx
          · exact hrest y hy
      · rw [dif_neg hc]
        exact ih _ (by simpa using h)

lemma segmt_assign (hP : SlashLocal P) {s : Str} (h : P s) : ∀ x ∈ (assign s).segmt, P x.val := by
  cases s with
  | nil => exact fun x hx => absurd hx List.not_mem_nil
  | cons c rest =>
      refine hP.assignLoop (by simp) ?_
      split
      · rename_i hc
        subst hc
        exact ((hP.split [] rest).1 h).2
      · exact h

lemma join (hP : SlashLocal P) {segs : List Segment} (h : ∀ x ∈ segs, P x.val) :
    P (join segs) := by
  induction segs with
  | nil => exact hP.nil
  | cons x rest ih =>
      cases rest with
      | nil => exact h x (by simp)
      | cons y rest =>
          rw [join_cons (List.cons_ne_nil y rest)]
          exact (hP.split _ _).2 ⟨h x (by simp), ih fun z hz => h z (List.mem_cons_of_mem x hz)⟩

lemma slash (hP : SlashLocal P) : P [Byte.slash] := (hP.split [] []).2 ⟨hP.nil, hP.nil⟩

/-- The text of a path has the property when its segments have it. -/
lemma get (hP : SlashLocal P) {p : Path} (h : ∀ x ∈ p.segmt, P x.val) : P p.get := by
  by_cases hs : p.segmt = []
  · rw [get_of_segmt_eq_nil hs]
    split
    · exact hP.slash
    · exact hP.nil
  · have hj : P (Path.join p.segmt ++ if p.slashEnd then [Byte.slash] else []) := by
      split
      · exact (hP.split _ []).2 ⟨hP.join h, hP.nil⟩
      · rw [List.append_nil]
        exact hP.join h
    rw [get_of_segmt_ne_nil hs, List.append_assoc]
    split
    · exact (hP.split [] _).2 ⟨hP.nil, hj⟩
    · exact hj

/-- The segments of a path have the property when its text has it. -/
lemma segmt (hP : SlashLocal P) {p : Path} (h : P p.get) : ∀ x ∈ p.segmt, P x.val := by
  intro x hx
  have hread := assign_get (List.ne_nil_of_mem hx)
  exact hP.segmt_assign h x (by rwa [hread])

end SlashLocal

lemma slashLocal_forall (Q : UInt8 → Prop) (hQ : Q Byte.slash) :
    SlashLocal fun s => ∀ c ∈ s, Q c where
  nil := by simp
  split x y := by
    constructor
    · intro h
      exact ⟨fun c hc => h c (by simp [hc]), fun c hc => h c (by simp [hc])⟩
    · rintro ⟨hx, hy⟩ c hc
      rcases List.mem_append.1 hc with hc | hc
      · exact hx c hc
      · rcases List.mem_cons.1 hc with rfl | hc
        · exact hQ
        · exact hy c hc

lemma slashLocal_clean {mask : UInt8} (hm : urlCharTest Byte.slash mask = false) :
    SlashLocal (Clean mask) where
  nil := clean_nil
  split x y := by
    rw [clean_append_cons_iff delim_slash.toOutside]
    exact ⟨fun h => ⟨h.1, h.2.2⟩, fun h => ⟨h.1, hm, h.2⟩⟩

lemma slashLocal_stable : SlashLocal Stable where
  nil := by simp [Stable]
  split _ _ := stable_append_cons_iff delim_slash.toOutside

/-! ### The text of a path that was read -/

/-- A path begins with a slash as it says, and never with two. -/
lemma get_head (p : Path) : (p.slashBegin = true → ∃ t, p.get = Byte.slash :: t) ∧
    ∀ t, p.get ≠ Byte.slash :: Byte.slash :: t := by
  by_cases hs : p.segmt = []
  · rw [get_of_segmt_eq_nil hs]
    refine ⟨fun hb => ⟨[], by simp [hb]⟩, fun t ht => ?_⟩
    split at ht <;> simp at ht
  · obtain ⟨c, u, hcu⟩ := List.exists_cons_of_ne_nil (join_ne_nil hs)
    have hc := join_head_ne_slash hcu
    rw [get_of_segmt_ne_nil hs, hcu]
    cases hb : p.slashBegin with
    | true =>
        refine ⟨fun _ => ⟨_, rfl⟩, fun t ht => ?_⟩
        simp only [if_true, List.cons_append, List.nil_append, List.cons.injEq] at ht
        exact hc ht.2.1
    | false =>
        refine ⟨fun h => absurd h (by simp), fun t ht => ?_⟩
        simp only [Bool.false_eq_true, if_false, List.nil_append, List.cons_append,
          List.cons.injEq] at ht
        exact hc ht.1

/-- The first segment of a text is read first. -/
lemma assign_segment_append (x : Segment) {y : Str} (hy : ∀ c ∈ y.head?, c = Byte.slash) :
    (assign (x.val ++ y)).slashBegin = false ∧ ∃ rest, (assign (x.val ++ y)).segmt = x :: rest := by
  obtain ⟨c, t, hct⟩ := List.exists_cons_of_ne_nil x.property.1
  have hc : c ≠ Byte.slash := by
    rintro rfl
    exact x.property.2 (by simp [hct])
  have hloop : ∃ rest, assignLoop [] (by simp) (x.val ++ y) = x :: rest := by
    cases y with
    | nil => exact ⟨[], by rw [List.append_nil, assignLoop_segment_end]⟩
    | cons d y =>
        rw [hy d rfl]
        exact ⟨_, assignLoop_segment x y⟩
  rw [hct, List.cons_append] at hloop ⊢
  simp only [assign, if_neg hc]
  exact ⟨by simpa using hc, hloop⟩

lemma takeWhile_get_segment {p : Path} {x : Segment} {rest : List Segment}
    (hb : p.slashBegin = false) (hx : p.segmt = x :: rest) :
    p.get.takeWhile (· != Byte.slash) = x.val := by
  have hne := bne_of_notMem x.property.2
  rw [get_of_segmt_ne_nil (by simp [hx]), hb, hx]
  cases rest with
  | nil =>
      rw [join, List.append_assoc, if_neg (by simp), List.nil_append,
        List.takeWhile_append_of_pos hne]
      split <;> simp
  | cons y rest =>
      rw [join_cons (List.cons_ne_nil y rest), if_neg (by simp), List.nil_append,
        List.append_assoc, List.takeWhile_append_of_pos hne]
      simp

/-- Reading a path keeps the text before the first slash. -/
lemma takeWhile_get_assign (s : Str) :
    (assign s).get.takeWhile (· != Byte.slash) = s.takeWhile (· != Byte.slash) := by
  have hsplit := (List.takeWhile_append_dropWhile (p := (· != Byte.slash)) (l := s)).symm
  have hstop : ∀ c ∈ (s.dropWhile (· != Byte.slash)).head?, c = Byte.slash := by
    intro c hc
    simpa using head?_dropWhile hc
  by_cases hx : s.takeWhile (· != Byte.slash) = []
  · -- the text is empty or begins with a slash
    cases s with
    | nil => rfl
    | cons c s =>
        have hc : c = Byte.slash := by
          by_contra hc
          simp [hc] at hx
        obtain ⟨t, ht⟩ := (get_head (assign (c :: s))).1 (by simp [assign, hc])
        rw [hx, ht]
        simp
  · obtain ⟨hb, rest, hrest⟩ := assign_segment_append ⟨_, hx, notMem_takeWhile_bne⟩ hstop
    simp only [← hsplit] at hb hrest
    exact takeWhile_get_segment hb hrest

/-- A text is read as a relative path if it is not empty and does not begin with a slash. -/
lemma assign_relative_iff {s : Str} :
    (assign s).empty = false ∧ (assign s).slashBegin = false ↔
      s ≠ [] ∧ s.head? ≠ some Byte.slash := by
  cases s with
  | nil => simp [assign, empty]
  | cons c s =>
      have hbegin : (assign (c :: s)).slashBegin = (c == Byte.slash) := rfl
      by_cases hc : c = Byte.slash
      · rw [hbegin, hc]
        simp
      · have hget := takeWhile_get_assign (c :: s)
        rw [List.takeWhile_cons_of_pos (by simpa using hc)] at hget
        have hne : (assign (c :: s)).get ≠ [] := by
          intro hnil
          rw [hnil] at hget
          exact absurd hget (by simp)
        rw [Ne, get_eq_nil_iff, Bool.not_eq_true] at hne
        simp [hbegin, hc, hne]

/-! ### The loop of `normalize` -/

/-- A segment that is no dot segment. -/
def isName (s : Segment) : Bool := s ≠ Segment.dot ∧ s ≠ Segment.dotdot

lemma isName_iff {s : Segment} : isName s = true ↔ s ≠ Segment.dot ∧ s ≠ Segment.dotdot :=
  decide_eq_true_iff

lemma isName_eq_false_iff {s : Segment} :
    isName s = false ↔ s = Segment.dot ∨ s = Segment.dotdot := by
  rw [Bool.eq_false_iff, Ne, isName_iff, not_and_or, not_not, not_not]

/-- The three things that a turn of the loop can do: it removes a `..` with the name before it, it
removes a `.`, or it goes on to the next segment. -/
lemma normalizeLoop_cases (before : List Segment) (e : Bool) (i : Segment) (l : List Segment) :
    (∃ j b, before = j :: b ∧ i = Segment.dotdot ∧ isName j = true ∧
      normalizeLoop before e (i :: l) = normalizeLoop b (e || l.isEmpty) l) ∨
    (i = Segment.dot ∧
      normalizeLoop before e (i :: l) = normalizeLoop before (e || l.isEmpty) l) ∨
    (i ≠ Segment.dot ∧ (i = Segment.dotdot → ∀ j ∈ before.head?, isName j = false) ∧
      normalizeLoop before e (i :: l) = normalizeLoop (i :: before) e l) := by
  cases before with
  | nil =>
      rw [normalizeLoop]
      split
      · next hi => exact Or.inr (Or.inl ⟨hi, rfl⟩)
      · next hi => exact Or.inr (Or.inr ⟨hi, by simp, rfl⟩)
  | cons j before =>
      rw [normalizeLoop]
      split
      · next hpop =>
          exact Or.inl ⟨j, before, rfl, hpop.1, isName_iff.2 hpop.2.symm, rfl⟩
      · next hpop =>
          split
          · next hi => exact Or.inr (Or.inl ⟨hi, rfl⟩)
          · next hi =>
              refine Or.inr (Or.inr ⟨hi, fun hdotdot k hk => ?_, rfl⟩)
              obtain rfl := Option.some.inj hk
              rw [Bool.eq_false_iff, Ne, isName_iff]
              exact fun hj => hpop ⟨hdotdot, hj.symm⟩

/-! ### Normalizing twice -/

/-- The segment `i` stays where it is when it follows `j`. -/
def Stays (j i : Segment) : Prop :=
  i ≠ Segment.dot ∧ (i = Segment.dotdot → j = Segment.dotdot ∨ j = Segment.dot)

/-- The segments before the iterator always stay where they are. -/
lemma isChain_normalizeLoop (before : List Segment) (e : Bool) (l : List Segment)
    (h : before.reverse.IsChain Stays) : (normalizeLoop before e l).1.IsChain Stays := by
  induction l generalizing before e with
  | nil => exact h
  | cons i l ih =>
      rcases normalizeLoop_cases before e i l with
        ⟨j, b, rfl, -, -, hloop⟩ | ⟨-, hloop⟩ | ⟨hdot, hdotdot, hloop⟩
      · rw [List.reverse_cons] at h
        rw [hloop]
        exact ih _ _ h.left_of_append
      · rw [hloop]
        exact ih _ _ h
      · rw [hloop]
        refine ih _ _ ?_
        rw [List.reverse_cons, List.isChain_append, List.getLast?_reverse]
        refine ⟨h, List.isChain_singleton i, fun j hj k hk => ?_⟩
        obtain rfl := Option.some.inj hk
        exact ⟨hdot, fun hi => (isName_eq_false_iff.1 (hdotdot hi j hj)).symm⟩

/-- Where every segment stays, the loop changes nothing. -/
lemma normalizeLoop_of_isChain (j : Segment) (before : List Segment) (e : Bool) (l : List Segment)
    (h : (j :: before).reverse ++ l |>.IsChain Stays) :
    normalizeLoop (j :: before) e l = ((j :: before).reverse ++ l, e) := by
  induction l generalizing j before with
  | nil => rw [normalizeLoop, List.append_nil]
  | cons i rest ih =>
      have hstays : Stays j i := by
        rw [List.reverse_cons, List.append_assoc, List.singleton_append] at h
        exact (List.isChain_cons_cons.1 h.right_of_append).1
      have hpop : ¬ (i = Segment.dotdot ∧ j ≠ Segment.dotdot ∧ j ≠ Segment.dot) :=
        fun ⟨hi, hj⟩ => (hstays.2 hi).elim hj.1 hj.2
      have hl : (j :: before).reverse ++ i :: rest = (i :: j :: before).reverse ++ rest := by
        simp
      rw [normalizeLoop, if_neg hpop, if_neg hstays.1, hl]
      exact ih i (j :: before) (hl ▸ h)

/-- Normalizing a path twice is normalizing it once. -/
theorem normalize_normalize (p : Path) : p.normalize.normalize = p.normalize := by
  cases hs : p.segmt with
  | nil => simp only [normalize, hs]
  | cons first rest =>
      have hchain := isChain_normalizeLoop [first] p.slashEnd rest
        (List.isChain_singleton first)
      simp only [normalize, hs]
      generalize normalizeLoop [first] p.slashEnd rest = r at hchain
      obtain ⟨segs, e⟩ := r
      cases segs with
      | nil => rfl
      | cons x segs => simp only [normalizeLoop_of_isChain x [] e segs hchain]; rfl

lemma mem_normalizeLoop {before : List Segment} (e : Bool) (l : List Segment) {x : Segment}
    (h : x ∈ (normalizeLoop before e l).1) : x ∈ before ∨ x ∈ l := by
  induction l generalizing before e with
  | nil => exact Or.inl (List.mem_reverse.1 h)
  | cons i l ih =>
      rcases normalizeLoop_cases before e i l with
        ⟨j, b, rfl, -, -, hloop⟩ | ⟨-, hloop⟩ | ⟨-, -, hloop⟩
      · rw [hloop] at h
        exact (ih _ h).imp (List.mem_cons_of_mem j) (List.mem_cons_of_mem i)
      · rw [hloop] at h
        exact (ih _ h).imp_right (List.mem_cons_of_mem i)
      · rw [hloop] at h
        rcases ih _ h with h | h
        · rcases List.mem_cons.1 h with rfl | h
          · exact Or.inr (List.mem_cons_self ..)
          · exact Or.inl h
        · exact Or.inr (List.mem_cons_of_mem i h)

/-- Normalization adds no segment. -/
lemma mem_normalize {p : Path} {x : Segment} (h : x ∈ p.normalize.segmt) : x ∈ p.segmt := by
  cases hs : p.segmt with
  | nil => rwa [normalize, hs, hs] at h
  | cons first rest =>
      simp only [normalize, hs] at h
      simpa using mem_normalizeLoop p.slashEnd rest h

lemma SlashLocal.get_normalize {P : Str → Prop} (hP : SlashLocal P) {p : Path} (h : P p.get) :
    P p.normalize.get :=
  hP.get fun x hx => hP.segmt h x (mem_normalize hx)

lemma slashBegin_normalize (p : Path) : p.normalize.slashBegin = p.slashBegin := by
  rw [normalize]
  split <;> rfl

/-- A normalized absolute path that is printed and read is normalized. -/
lemma get_normalize_reread {p : Path} (hb : p.slashBegin = true) :
    ((assign p.normalize.get).setAbsolute true).normalize.get = p.normalize.get := by
  have hb' : p.normalize.slashBegin = true := (slashBegin_normalize p).trans hb
  by_cases hs : p.normalize.segmt = []
  · rw [get_of_segmt_eq_nil hs, hb']
    rfl
  · have habs : p.normalize.setAbsolute true = p.normalize := by
      rw [setAbsolute, ← hb']
    rw [assign_get hs, habs, normalize_normalize]

end Path

end Mycelium
