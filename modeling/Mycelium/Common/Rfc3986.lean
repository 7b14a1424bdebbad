import Mycelium.Common.Path

/-!
# Reference resolution of RFC 3986

The algorithms of section 5.2, on texts: `removeDotSegments` with its input and its output
buffer, `merge` and `transform`.  This is the statement of what `merge_ref` is for; it names
nothing of the classes.  The second half of the file runs `removeDotSegments` on texts that are
built from segments.
-/

namespace Mycelium

open Lib

namespace Rfc3986

/-- The components of a reference; a component that is not there is undefined. -/
structure Ref where
  scheme : Option Str
  authority : Option Str
  path : Str
  query : Option Str
  fragment : Option Str
deriving DecidableEq, Repr

/-- The output buffer without its last segment and the slash before it, if there is one. -/
def removeLast (out : Str) : Str := ((out.reverse.dropWhile (· != Byte.slash)).drop 1).reverse

/-- The first segment of the input buffer, with the slash at its beginning if there is one. -/
def firstSegment : Str → Str
  | [] => []
  | c :: rest => c :: rest.takeWhile (· != Byte.slash)

/-- One turn of the loop of section 5.2.4, on the output and the input buffer. -/
def step (out inp : Str) : Str × Str :=
  if (lit "../").isPrefixOf inp then (out, inp.drop 3)
  else if (lit "./").isPrefixOf inp then (out, inp.drop 2)
  else if (lit "/./").isPrefixOf inp then (out, inp.drop 2)
  else if inp = lit "/." then (out, lit "/")
  else if (lit "/../").isPrefixOf inp then (removeLast out, inp.drop 3)
  else if inp = lit "/.." then (removeLast out, lit "/")
  else if inp = lit "." ∨ inp = lit ".." then (out, [])
  else (out ++ firstSegment inp, inp.drop (firstSegment inp).length)

/-- Every turn takes something from the input buffer. -/
lemma length_step_lt (out : Str) {inp : Str} (h : inp ≠ []) :
    (step out inp).2.length < inp.length := by
  have hpos := List.length_pos_iff.2 h
  obtain ⟨c, rest, rfl⟩ := List.exists_cons_of_ne_nil h
  rw [step]
  split_ifs with h1 h2 h3 h4 h5 h6 h7
  · rw [List.length_drop]
    omega
  · rw [List.length_drop]
    omega
  · rw [List.length_drop]
    omega
  · rw [h4]
    show (lit "/").length < (lit "/.").length
    decide
  · rw [List.length_drop]
    omega
  · rw [h6]
    show (lit "/").length < (lit "/..").length
    decide
  · exact hpos
  · simp only [firstSegment, List.length_drop, List.length_cons]
    omega

/-- Section 5.2.4: the loop until the input buffer is empty. -/
def removeDotSegments (out inp : Str) : Str :=
  if h : inp = [] then out
  else
    have := length_step_lt out h
    removeDotSegments (step out inp).1 (step out inp).2
termination_by inp.length

/-- Section 5.2.3. -/
def merge (base : Ref) (path : Str) : Str :=
  if base.authority.isSome && base.path.isEmpty then Byte.slash :: path
  else (base.path.reverse.dropWhile (· != Byte.slash)).reverse ++ path

/-- Section 5.2.2, for a strict parser. -/
def transform (base r : Ref) : Ref :=
  if r.scheme.isSome then { r with path := removeDotSegments [] r.path }
  else if r.authority.isSome then
    { r with scheme := base.scheme, path := removeDotSegments [] r.path }
  else
    { scheme := base.scheme
      authority := base.authority
      path :=
        if r.path.isEmpty then base.path
        else if r.path.head? = some Byte.slash then removeDotSegments [] r.path
        else removeDotSegments [] (merge base r.path)
      query := if r.path.isEmpty && r.query.isNone then base.query else r.query
      fragment := r.fragment }

/-! ### Texts of segments -/

/-- The segments with a slash before each of them. -/
def slashed (segs : List Segment) : Str := segs.flatMap fun s => Byte.slash :: s.val

/-- The slash at the end of a path. -/
def tail (e : Bool) : Str := if e then [Byte.slash] else []

@[simp] lemma slashed_nil : slashed [] = [] := rfl

lemma slashed_cons (s : Segment) (segs : List Segment) :
    slashed (s :: segs) = Byte.slash :: s.val ++ slashed segs := rfl

lemma slashed_append (segs segs' : List Segment) :
    slashed (segs ++ segs') = slashed segs ++ slashed segs' := List.flatMap_append

lemma slashed_concat (segs : List Segment) (s : Segment) :
    slashed (segs ++ [s]) = slashed segs ++ Byte.slash :: s.val := by
  simp [slashed_append, slashed_cons]

lemma slashed_eq_join {segs : List Segment} (h : segs ≠ []) :
    slashed segs = Byte.slash :: Path.join segs := by
  induction segs with
  | nil => exact absurd rfl h
  | cons s rest ih =>
      cases rest with
      | nil => simp [slashed_cons, Path.join]
      | cons t rest =>
          rw [slashed_cons, ih (List.cons_ne_nil t rest), Path.join_cons (List.cons_ne_nil t rest),
            List.cons_append]

/-- What follows a segment is nothing or begins with a slash. -/
lemma head?_slashed_tail (segs : List Segment) (e : Bool) :
    ∀ c ∈ (slashed segs ++ tail e).head?, c = Byte.slash := by
  intro c hc
  cases segs with
  | nil => cases e <;> simp_all [tail]
  | cons s segs => simpa [slashed_cons] using hc.symm

/-- The text up to the last slash. -/
lemma reverse_dropWhile_segment (out : Str) (s : Segment) :
    ((out ++ Byte.slash :: s.val).reverse.dropWhile (· != Byte.slash)).reverse
      = out ++ [Byte.slash] := by
  have hs : Byte.slash ∉ s.val.reverse := by
    rw [List.mem_reverse]
    exact s.property.2
  rw [List.reverse_append, List.reverse_cons, List.append_assoc, List.singleton_append,
    dropWhile_bne_append hs, List.reverse_cons, List.reverse_reverse]

lemma removeLast_slashed (segs : List Segment) :
    removeLast (slashed segs) = slashed segs.dropLast := by
  rcases List.eq_nil_or_concat segs with rfl | ⟨segs, s, rfl⟩
  · rfl
  · have h := congrArg List.reverse (reverse_dropWhile_segment (slashed segs) s)
    rw [List.reverse_reverse] at h
    rw [List.concat_eq_append, slashed_concat, removeLast, h, List.dropLast_concat]
    simp

/-! ### Turns of the loop -/

lemma removeDotSegments_nil (out : Str) : removeDotSegments out [] = out := by
  rw [removeDotSegments, dif_pos rfl]

lemma removeDotSegments_of_step {out inp out' inp' : Str} (h : inp ≠ [])
    (hs : step out inp = (out', inp')) :
    removeDotSegments out inp = removeDotSegments out' inp' := by
  rw [removeDotSegments, dif_neg h]
  simp only [hs]

lemma removeDotSegments_slash (out : Str) :
    removeDotSegments out [Byte.slash] = out ++ [Byte.slash] := by
  have hstep : step out [Byte.slash] = (out ++ [Byte.slash], []) := rfl
  rw [removeDotSegments_of_step (by simp) hstep, removeDotSegments_nil]

section Turn

variable {out rest : Str} {s : Segment}

lemma takeWhile_segment (hrest : ∀ c ∈ rest.head?, c = Byte.slash) :
    (s.val ++ rest).takeWhile (· != Byte.slash) = s.val :=
  takeWhile_append_of_stop (bne_of_notMem s.property.2) fun c hc => by simp [hrest c hc]

/-- A segment is told from another one by the text before the next slash. -/
lemma not_isPrefixOf_segment {x : Segment} (hne : s ≠ x)
    (hrest : ∀ c ∈ rest.head?, c = Byte.slash) :
    (Byte.slash :: x.val ++ [Byte.slash]).isPrefixOf (Byte.slash :: s.val ++ rest) = false := by
  by_contra h
  rw [Bool.not_eq_false, List.isPrefixOf_iff_prefix] at h
  obtain ⟨y, hy⟩ := h
  simp only [List.cons_append, List.append_assoc, List.cons.injEq, true_and] at hy
  have htake := takeWhile_segment (s := s) hrest
  rw [← hy, takeWhile_segment (by simp)] at htake
  exact hne (Subtype.ext htake.symm)

lemma segment_append_ne {x : Segment} (hne : s ≠ x) (hrest : ∀ c ∈ rest.head?, c = Byte.slash) :
    Byte.slash :: s.val ++ rest ≠ Byte.slash :: x.val := by
  intro h
  rw [List.cons_append, List.cons.injEq] at h
  have htake := takeWhile_segment (s := s) hrest
  have hx : (x.val ++ []).takeWhile (· != Byte.slash) = x.val := takeWhile_segment (by simp)
  rw [h.2] at htake
  rw [List.append_nil] at hx
  exact hne (Subtype.ext (htake.symm.trans hx))

lemma step_dot (hrest : rest ≠ [] → ∃ r, rest = Byte.slash :: r) :
    step out (Byte.slash :: Segment.dot.val ++ rest)
      = (out, if rest = [] then [Byte.slash] else rest) := by
  by_cases h : rest = []
  · subst h
    rfl
  · obtain ⟨r, rfl⟩ := hrest h
    rfl

lemma step_dotdot (hrest : rest ≠ [] → ∃ r, rest = Byte.slash :: r) :
    step out (Byte.slash :: Segment.dotdot.val ++ rest)
      = (removeLast out, if rest = [] then [Byte.slash] else rest) := by
  by_cases h : rest = []
  · subst h
    rfl
  · obtain ⟨r, rfl⟩ := hrest h
    rfl

/-- Any other segment is moved to the output buffer. -/
lemma step_segment (hdot : s ≠ Segment.dot) (hdotdot : s ≠ Segment.dotdot)
    (hrest : ∀ c ∈ rest.head?, c = Byte.slash) :
    step out (Byte.slash :: s.val ++ rest) = (out ++ Byte.slash :: s.val, rest) := by
  -- the seven conditions before the last one fail, in the order of the loop
  have h1 : (lit "../").isPrefixOf (Byte.slash :: s.val ++ rest) = false := rfl
  have h2 : (lit "./").isPrefixOf (Byte.slash :: s.val ++ rest) = false := rfl
  have h3 : (lit "/./").isPrefixOf (Byte.slash :: s.val ++ rest) = false :=
    not_isPrefixOf_segment hdot hrest
  have h4 : Byte.slash :: s.val ++ rest ≠ lit "/." := segment_append_ne hdot hrest
  have h5 : (lit "/../").isPrefixOf (Byte.slash :: s.val ++ rest) = false :=
    not_isPrefixOf_segment hdotdot hrest
  have h6 : Byte.slash :: s.val ++ rest ≠ lit "/.." := segment_append_ne hdotdot hrest
  have h7 : ¬ (Byte.slash :: s.val ++ rest = lit "." ∨ Byte.slash :: s.val ++ rest = lit "..") := by
    rintro (h | h)
    · exact absurd (List.cons.inj h).1 (by decide)
    · exact absurd (List.cons.inj h).1 (by decide)
  have hfirst : firstSegment (Byte.slash :: s.val ++ rest) = Byte.slash :: s.val := by
    rw [List.cons_append, firstSegment, takeWhile_segment hrest]
  rw [step, if_neg (Bool.eq_false_iff.1 h1), if_neg (Bool.eq_false_iff.1 h2),
    if_neg (Bool.eq_false_iff.1 h3), if_neg h4, if_neg (Bool.eq_false_iff.1 h5), if_neg h6,
    if_neg h7, hfirst]
  simp

end Turn

/-! ### The loop on segments -/

/-- The text of an absolute path. -/
def absText (segs : List Segment) (e : Bool) : Str :=
  if segs = [] then [Byte.slash] else slashed segs ++ tail e

lemma absText_eq_get {p : Path} (h : p.slashBegin = true) : p.get = absText p.segmt p.slashEnd := by
  by_cases hs : p.segmt = []
  · rw [Path.get_of_segmt_eq_nil hs, absText, if_pos hs, h]
    rfl
  · rw [Path.get_of_segmt_ne_nil hs, absText, if_neg hs, slashed_eq_join hs, h]
    rfl

/-- Segments that are no dot segments are copied. -/
lemma removeDotSegments_copy {segs : List Segment}
    (h : ∀ s ∈ segs, s ≠ Segment.dot ∧ s ≠ Segment.dotdot) {rest : Str}
    (hrest : ∀ c ∈ rest.head?, c = Byte.slash) (out : Str) :
    removeDotSegments out (slashed segs ++ rest)
      = removeDotSegments (out ++ slashed segs) rest := by
  induction segs generalizing out with
  | nil => simp
  | cons s segs ih =>
      obtain ⟨hdot, hdotdot⟩ := h s (by simp)
      have hhead : ∀ c ∈ (slashed segs ++ rest).head?, c = Byte.slash := by
        intro c hc
        cases segs with
        | nil => exact hrest c hc
        | cons t segs => simpa [slashed_cons] using hc.symm
      rw [slashed_cons, List.append_assoc,
        removeDotSegments_of_step (by simp) (step_segment hdot hdotdot hhead),
        ih (fun t ht => h t (by simp [ht]))]
      simp

lemma absText_true (o : List Segment) : absText o true = slashed o ++ [Byte.slash] := by
  by_cases h : o = []
  · simp [absText, h]
  · simp [absText, h, tail]

/-- One segment, with something after it: the input buffer goes on with what follows, the output
buffer holds the segments that `Path::merge` has collected. -/
lemma removeDotSegments_mergeStep (s : Segment) (o : List Segment) (f : Bool) {rest : Str}
    (hne : rest ≠ []) (hrest : ∀ c ∈ rest.head?, c = Byte.slash) :
    removeDotSegments (slashed o) (Byte.slash :: s.val ++ rest)
      = removeDotSegments (slashed (Path.mergeStep (o, f) s).1) rest := by
  have hcons : rest ≠ [] → ∃ r, rest = Byte.slash :: r := by
    intro h
    obtain ⟨c, r, rfl⟩ := List.exists_cons_of_ne_nil h
    exact ⟨r, by rw [hrest c rfl]⟩
  rw [Path.mergeStep]
  split_ifs with hdot hdotdot hempty
  · subst hdot
    rw [removeDotSegments_of_step (by simp) (step_dot hcons), if_neg hne]
  · -- there is no segment to remove, on either side
    subst hdotdot
    obtain rfl : o = [] := List.isEmpty_iff.1 hempty
    rw [removeDotSegments_of_step (by simp) (step_dotdot hcons), if_neg hne]
    rfl
  · subst hdotdot
    rw [removeDotSegments_of_step (by simp) (step_dotdot hcons), if_neg hne, removeLast_slashed]
  · rw [removeDotSegments_of_step (by simp) (step_segment hdot hdotdot hrest), ← slashed_concat]

/-- The last segment: a dot segment leaves a slash. -/
lemma removeDotSegments_last (s : Segment) (o : List Segment) (f : Bool) :
    removeDotSegments (slashed o) (Byte.slash :: s.val)
      = absText (Path.mergeStep (o, f) s).1 (Path.mergeStep (o, f) s).2 := by
  have hnil : ([] : Str) ≠ [] → ∃ r, ([] : Str) = Byte.slash :: r := fun h => absurd rfl h
  rw [← List.append_nil (Byte.slash :: s.val), Path.mergeStep]
  split_ifs with hdot hdotdot hempty
  · subst hdot
    rw [removeDotSegments_of_step (by simp) (step_dot hnil), if_pos rfl, removeDotSegments_slash,
      absText_true]
  · subst hdotdot
    obtain rfl : o = [] := List.isEmpty_iff.1 hempty
    rw [removeDotSegments_of_step (by simp) (step_dotdot hnil), if_pos rfl,
      removeDotSegments_slash]
    rfl
  · subst hdotdot
    rw [removeDotSegments_of_step (by simp) (step_dotdot hnil), if_pos rfl, removeLast_slashed,
      removeDotSegments_slash, absText_true]
  · rw [removeDotSegments_of_step (by simp) (step_segment hdot hdotdot (by simp)),
      removeDotSegments_nil, ← slashed_concat, absText, if_neg (by simp)]
    simp [tail]

/-- The loop of `Path::merge` is the loop of section 5.2.4.  The flag of the code says whether
the output buffer would end in a slash. -/
lemma removeDotSegments_eq_foldl (segs o : List Segment) (f e : Bool)
    (h : segs ≠ [] ∨ e = true) :
    removeDotSegments (slashed o) (slashed segs ++ tail e)
      = absText (segs.foldl Path.mergeStep (o, f)).1
          ((segs.foldl Path.mergeStep (o, f)).2 || e) := by
  induction segs generalizing o f with
  | nil =>
      obtain rfl : e = true := h.resolve_left (by simp)
      rw [List.foldl_nil, Bool.or_true, absText_true]
      exact removeDotSegments_slash _
  | cons s segs ih =>
      rw [slashed_cons, List.append_assoc, List.foldl_cons]
      by_cases hr : segs ≠ [] ∨ e = true
      · have hne : slashed segs ++ tail e ≠ [] := by
          rcases hr with hr | rfl
          · simp [slashed_eq_join hr]
          · simp [tail]
        rw [removeDotSegments_mergeStep s o f hne (head?_slashed_tail segs e)]
        exact ih _ _ hr
      · -- `s` is the last segment
        rw [not_or, not_not, Bool.not_eq_true] at hr
        obtain ⟨rfl, rfl⟩ := hr
        rw [slashed_nil, List.nil_append, tail, if_neg (by simp), List.append_nil,
          removeDotSegments_last s o f, List.foldl_nil, Bool.or_false]

end Rfc3986

end Mycelium
