import Mycelium.Common.UrlMerge
import Mycelium.Lib.Lines

/-!
# Dot segments

Three procedures remove dot segments: `Path::normalize` edits the list of segments in place,
`Path::merge` folds the segments of a reference onto those of the base, and RFC 3986 has the loop of
section 5.2.4.  `Rfc3986.removeDotSegments_eq_foldl` says that the last two are the same.  Here the
first one is compared with them.

Normalization changes nothing in what `merge` makes of a path.  But it starts at the second segment
and keeps a `..` that has no name before it, so that dot segments stay in an absolute path that
starts with `.` or goes above the root; and a relative path whose segments all cancel is printed
as `/`.
-/

namespace Mycelium

open Lib

namespace Path

/-! ### The paths of texts -/

lemma slashBegin_assign {s : Str} (h : s.head? = some Byte.slash) :
    (assign s).slashBegin = true := by
  obtain ⟨t, rfl⟩ := List.head?_eq_some_iff.1 h
  rfl

lemma segmt_assign_relative {s : Str} (hne : s ≠ []) (h : s.head? ≠ some Byte.slash) :
    (assign s).slashBegin = false ∧ (assign s).segmt ≠ [] := by
  obtain ⟨c, t, rfl⟩ := List.exists_cons_of_ne_nil hne
  have hc : c ≠ Byte.slash := fun hc => h (congrArg some hc)
  have hget := takeWhile_get_assign (c :: t)
  have hbegin : (assign (c :: t)).slashBegin = false := by simpa [assign] using hc
  refine ⟨hbegin, fun hnil => ?_⟩
  -- the text of a path without segments has nothing before its first slash
  rw [List.takeWhile_cons_of_pos (by simpa using hc), get_of_segmt_eq_nil hnil] at hget
  split at hget
  · exact absurd hget (by simp)
  · exact absurd hget (by simp)

/-! ### The stack of segments -/

lemma mergeStep_dot (acc : List Segment × Bool) : mergeStep acc Segment.dot = (acc.1, true) := rfl

lemma mergeStep_of_isName {i : Segment} (h : isName i = true) (acc : List Segment × Bool) :
    mergeStep acc i = (acc.1 ++ [i], false) := by
  obtain ⟨hdot, hdotdot⟩ := isName_iff.1 h
  rw [mergeStep, if_neg hdot, if_neg hdotdot]

/-- A name is pushed and removed again. -/
lemma mergeStep_cancel {i : Segment} (h : isName i = true) (acc : List Segment × Bool) :
    mergeStep (mergeStep acc i) Segment.dotdot = (acc.1, true) := by
  rw [mergeStep_of_isName h, mergeStep, if_neg (by decide), if_pos rfl, if_neg (by simp),
    List.dropLast_concat]

/-! ### Normalizing before merging -/

/-- The flag of the accumulator does not reach the segments, and it is overwritten by any segment,
but for a `..` without segments to remove. -/
lemma foldl_mergeStep_flag (l o : List Segment) (f f' : Bool) :
    (l.foldl mergeStep (o, f)).1 = (l.foldl mergeStep (o, f')).1 ∧
      (l ≠ [] → (l.foldl mergeStep (o, f)).1 = [] ∨
        (l.foldl mergeStep (o, f)).2 = (l.foldl mergeStep (o, f')).2) := by
  induction l generalizing o f f' with
  | nil => exact ⟨rfl, fun h => absurd rfl h⟩
  | cons i l ih =>
      rw [List.foldl_cons, List.foldl_cons]
      by_cases hkeep : i = Segment.dotdot ∧ o = []
      · obtain ⟨rfl, rfl⟩ := hkeep
        have hstep : ∀ g, mergeStep ([], g) Segment.dotdot = ([], g) := fun _ => rfl
        rw [hstep, hstep]
        refine ⟨(ih [] f f').1, fun _ => ?_⟩
        by_cases hl : l = []
        · subst hl
          exact Or.inl rfl
        · exact (ih [] f f').2 hl
      · have hstep : mergeStep (o, f) i = mergeStep (o, f') i := by
          rw [mergeStep, mergeStep]
          split
          · rfl
          · split
            · next hi =>
                have ho : o ≠ [] := fun ho => hkeep ⟨hi, ho⟩
                rw [if_neg (by simpa using ho), if_neg (by simpa using ho)]
            · rfl
        rw [hstep]
        exact ⟨rfl, fun _ => Or.inr rfl⟩

/-- A dot segment that is dropped sets the flag; where it is the last one, the path ends in a slash
instead. -/
lemma absText_foldl_drop (l : List Segment) (acc : List Segment × Bool) (e : Bool) :
    Rfc3986.absText (l.foldl mergeStep acc).1 ((l.foldl mergeStep acc).2 || (e || l.isEmpty))
      = Rfc3986.absText (l.foldl mergeStep (acc.1, true)).1
          ((l.foldl mergeStep (acc.1, true)).2 || e) := by
  by_cases hl : l = []
  · subst hl
    simp
  · obtain ⟨hsegs, hflag⟩ := foldl_mergeStep_flag l acc.1 acc.2 true
    rw [List.isEmpty_eq_false_iff.2 hl, Bool.or_false]
    rcases hflag hl with hnil | hflag
    · rw [← hsegs, hnil]
      rfl
    · rw [hsegs, hflag]

/-- The loop of `normalize` does not change what `merge` makes of the segments. -/
lemma absText_normalizeLoop (before l o : List Segment) (e f : Bool) :
    Rfc3986.absText ((normalizeLoop before e l).1.foldl mergeStep (o, f)).1
        (((normalizeLoop before e l).1.foldl mergeStep (o, f)).2 || (normalizeLoop before e l).2)
      = Rfc3986.absText ((before.reverse ++ l).foldl mergeStep (o, f)).1
          (((before.reverse ++ l).foldl mergeStep (o, f)).2 || e) := by
  induction l generalizing before e with
  | nil => rw [normalizeLoop, List.append_nil]
  | cons i l ih =>
      rcases normalizeLoop_cases before e i l with
        ⟨j, b, rfl, rfl, hj, hloop⟩ | ⟨rfl, hloop⟩ | ⟨-, -, hloop⟩
      · rw [hloop, ih, List.foldl_append, absText_foldl_drop, List.reverse_cons, List.append_assoc,
          List.singleton_append, List.foldl_append, List.foldl_cons, List.foldl_cons,
          mergeStep_cancel hj]
      · rw [hloop, ih, List.foldl_append, absText_foldl_drop, List.foldl_append, List.foldl_cons,
          mergeStep_dot]
      · rw [hloop, ih, List.reverse_cons, List.append_assoc, List.singleton_append]

/-- Where everything cancels, the last segment has set the flag. -/
lemma slashEnd_of_normalizeLoop_eq_nil {before l : List Segment} {e : Bool} (hl : l ≠ [])
    (h : (normalizeLoop before e l).1 = []) : (normalizeLoop before e l).2 = true := by
  induction l generalizing before e with
  | nil => exact absurd rfl hl
  | cons i l ih =>
      have hdrop : ∀ b, (normalizeLoop b (e || l.isEmpty) l).1 = [] →
          (normalizeLoop b (e || l.isEmpty) l).2 = true := by
        intro b hb
        by_cases hnil : l = []
        · subst hnil
          rw [normalizeLoop, List.isEmpty_nil, Bool.or_true]
        · exact ih hnil hb
      rcases normalizeLoop_cases before e i l with
        ⟨j, b, -, -, -, hloop⟩ | ⟨-, hloop⟩ | ⟨-, -, hloop⟩
      · rw [hloop] at h ⊢
        exact hdrop b h
      · rw [hloop] at h ⊢
        exact hdrop before h
      · rw [hloop] at h ⊢
        by_cases hnil : l = []
        · subst hnil
          exact absurd h (by simp [normalizeLoop])
        · exact ih hnil h

/-- A path with segments that all cancel keeps a slash. -/
lemma slashEnd_normalize {p : Path} (h : p.segmt ≠ []) (hnil : p.normalize.segmt = []) :
    p.normalize.slashEnd = true := by
  obtain ⟨first, rest, hsegs⟩ := List.exists_cons_of_ne_nil h
  simp only [normalize, hsegs] at hnil ⊢
  refine slashEnd_of_normalizeLoop_eq_nil ?_ hnil
  rintro rfl
  exact absurd hnil (by simp [normalizeLoop])

lemma empty_normalize {p : Path} (h : p.segmt ≠ []) : p.normalize.empty = false := by
  by_cases hnil : p.normalize.segmt = []
  · rw [empty, slashEnd_normalize h hnil]
    rfl
  · rw [empty, List.isEmpty_eq_false_iff.2 hnil, Bool.and_false, Bool.false_and]

/-- Normalization does not change what `merge` makes of a path. -/
lemma absText_normalize (p : Path) (o : List Segment) (f : Bool) :
    Rfc3986.absText (p.normalize.segmt.foldl mergeStep (o, f)).1
        ((p.normalize.segmt.foldl mergeStep (o, f)).2 || p.normalize.slashEnd)
      = Rfc3986.absText (p.segmt.foldl mergeStep (o, f)).1
          ((p.segmt.foldl mergeStep (o, f)).2 || p.slashEnd) := by
  cases hsegs : p.segmt with
  | nil => simp only [normalize, hsegs]
  | cons first rest =>
      simp only [normalize, hsegs]
      exact absText_normalizeLoop [first] rest o p.slashEnd f

/-- Normalizing a relative path before it is merged does not change the result. -/
theorem get_merge_normalize {b r : Str} (hb : b.head? = some Byte.slash) (hne : r ≠ [])
    (hr : r.head? ≠ some Byte.slash) :
    ((assign b).merge (assign r).normalize).get = ((assign b).merge (assign r)).get := by
  have hbase := slashBegin_assign hb
  obtain ⟨hbegin, hsegs⟩ := segmt_assign_relative hne hr
  have hempty : (assign r).empty = false := by simp [empty, hsegs]
  rw [Url.get_merge hbase ((slashBegin_normalize _).trans hbegin) (empty_normalize hsegs),
    Url.get_merge hbase hbegin hempty, absText_normalize]

theorem get_merge_normalize_excess :
    ((assign (lit "/x/y")).merge (assign (lit "a/../../../b/./")).normalize).get
      = ((assign (lit "/x/y")).merge (assign (lit "a/../../../b/./"))).get :=
  get_merge_normalize rfl (by decide) (by decide)

/-! ### The segments that stay -/

/-- Every `..` has a name before it that it removes, and the first segment is not `.`. -/
def Within (segs : List Segment) : Prop :=
  segs.head? ≠ some Segment.dot ∧
    ∀ t ∈ segs.inits, t.count Segment.dotdot ≤ t.countP isName

instance (segs : List Segment) : Decidable (Within segs) := inferInstanceAs (Decidable (_ ∧ _))

/-- A dot segment that the loop has passed stays. -/
lemma mem_normalizeLoop_of_not_isName {before : List Segment} (e : Bool) (l : List Segment)
    {x : Segment} (hx : isName x = false) (h : x ∈ before) : x ∈ (normalizeLoop before e l).1 := by
  induction l generalizing before e with
  | nil => exact List.mem_reverse.2 h
  | cons i l ih =>
      rcases normalizeLoop_cases before e i l with
        ⟨j, b, rfl, -, hj, hloop⟩ | ⟨-, hloop⟩ | ⟨-, -, hloop⟩
      · rw [hloop]
        refine ih _ ((List.mem_cons.1 h).resolve_left ?_)
        rintro rfl
        rw [hj] at hx
        exact absurd hx (by simp)
      · rw [hloop]
        exact ih _ h
      · rw [hloop]
        exact ih _ (List.mem_cons_of_mem i h)

/-- With `n` names before them, every `..` of the segments finds a name to remove. -/
def Fits (n : ℕ) (l : List Segment) : Prop :=
  ∀ t ∈ l.inits, t.count Segment.dotdot ≤ n + t.countP isName

section Fits

variable {n : ℕ} {i : Segment} {l : List Segment}

lemma fits_nil : Fits n [] := by simp [Fits]

lemma fits_cons : Fits n (i :: l) ↔
    ∀ t ∈ l.inits, (i :: t).count Segment.dotdot ≤ n + (i :: t).countP isName := by
  simp [Fits]

lemma fits_cons_of_isName (hi : isName i = true) : Fits n (i :: l) ↔ Fits (n + 1) l := by
  rw [fits_cons, Fits]
  refine forall₂_congr fun t _ => ?_
  rw [List.count_cons_of_ne (isName_iff.1 hi).2, List.countP_cons_of_pos hi]
  omega

lemma fits_cons_dot : Fits n (Segment.dot :: l) ↔ Fits n l := by
  rw [fits_cons, Fits]
  refine forall₂_congr fun t _ => ?_
  rw [List.count_cons_of_ne (by decide), List.countP_cons_of_neg (by decide)]

lemma fits_cons_dotdot : Fits (n + 1) (Segment.dotdot :: l) ↔ Fits n l := by
  rw [fits_cons, Fits]
  refine forall₂_congr fun t _ => ?_
  rw [List.count_cons_self, List.countP_cons_of_neg (by decide)]
  omega

lemma not_fits_zero_dotdot : ¬Fits 0 (Segment.dotdot :: l) := by
  intro h
  have hone := h [Segment.dotdot] (by simp)
  exact absurd hone (by decide)

end Fits

lemma eq_nil_of_head {before : List Segment} (h : ∀ x ∈ before, isName x = true)
    (hhead : ∀ j ∈ before.head?, isName j = false) : before = [] := by
  cases before with
  | nil => rfl
  | cons j b => exact absurd (h j (by simp)) (by simp [hhead j rfl])

/-- Behind names, the loop leaves names only exactly if every `..` finds one to remove. -/
lemma forall_isName_normalizeLoop_iff {before : List Segment} (h : ∀ x ∈ before, isName x = true)
    (e : Bool) (l : List Segment) :
    (∀ x ∈ (normalizeLoop before e l).1, isName x = true) ↔ Fits before.length l := by
  induction l generalizing before e with
  | nil =>
      refine iff_of_true (fun x hx => ?_) fits_nil
      exact h x (List.mem_reverse.1 hx)
  | cons i l ih =>
      rcases normalizeLoop_cases before e i l with
        ⟨j, b, rfl, rfl, -, hloop⟩ | ⟨rfl, hloop⟩ | ⟨hdot, hdotdot, hloop⟩
      · rw [hloop, ih fun x hx => h x (List.mem_cons_of_mem j hx), List.length_cons,
          fits_cons_dotdot]
      · rw [hloop, ih h, fits_cons_dot]
      · rw [hloop]
        by_cases hi : i = Segment.dotdot
        · -- there is no name before it, and it stays
          subst hi
          obtain rfl := eq_nil_of_head h (hdotdot rfl)
          refine iff_of_false (fun hall => ?_) not_fits_zero_dotdot
          have hstay := mem_normalizeLoop_of_not_isName e l (x := Segment.dotdot)
            (by decide) (List.mem_cons_self (l := []))
          exact absurd (hall _ hstay) (by decide)
        · have hname : isName i = true := isName_iff.2 ⟨hdot, hi⟩
          rw [ih (List.forall_mem_cons.2 ⟨hname, h⟩), fits_cons_of_isName hname, List.length_cons]

/-- If every `..` finds a name, then each of them removes one. -/
lemma length_normalizeLoop {before l : List Segment} (h : ∀ x ∈ before, isName x = true) (e : Bool)
    (hl : Fits before.length l) :
    (normalizeLoop before e l).1.length + l.count Segment.dotdot
      = before.length + l.countP isName := by
  induction l generalizing before e with
  | nil => simp [normalizeLoop]
  | cons i l ih =>
      rcases normalizeLoop_cases before e i l with
        ⟨j, b, rfl, rfl, -, hloop⟩ | ⟨rfl, hloop⟩ | ⟨hdot, hdotdot, hloop⟩
      · have hlen := ih (fun x hx => h x (List.mem_cons_of_mem j hx)) (e || l.isEmpty)
          (fits_cons_dotdot.1 hl)
        rw [hloop, List.count_cons_self, List.countP_cons_of_neg (by decide), List.length_cons]
        omega
      · rw [hloop, List.count_cons_of_ne (by decide), List.countP_cons_of_neg (by decide)]
        exact ih h _ (fits_cons_dot.1 hl)
      · have hi : i ≠ Segment.dotdot := by
          rintro rfl
          obtain rfl := eq_nil_of_head h (hdotdot rfl)
          exact not_fits_zero_dotdot hl
        have hname : isName i = true := isName_iff.2 ⟨hdot, hi⟩
        have hlen := ih (List.forall_mem_cons.2 ⟨hname, h⟩) e ((fits_cons_of_isName hname).1 hl)
        rw [List.length_cons] at hlen
        rw [hloop, List.count_cons_of_ne hi, List.countP_cons_of_pos hname]
        omega

lemma within_iff {segs : List Segment} :
    Within segs ↔ segs.head? ≠ some Segment.dot ∧ Fits 0 segs := by
  simp [Within, Fits]

lemma within_cons_iff {first : Segment} {rest : List Segment} :
    Within (first :: rest) ↔ isName first = true ∧ Fits 1 rest := by
  rw [within_iff]
  constructor
  · rintro ⟨hdot, hfits⟩
    have hname : isName first = true := by
      refine isName_iff.2 ⟨fun h => hdot (congrArg some h), ?_⟩
      rintro rfl
      exact not_fits_zero_dotdot hfits
    exact ⟨hname, (fits_cons_of_isName hname).1 hfits⟩
  · rintro ⟨hname, hfits⟩
    refine ⟨fun h => (isName_iff.1 hname).1 (Option.some.inj h), ?_⟩
    exact (fits_cons_of_isName hname).2 hfits

/-- No dot segment stays exactly if the path is within its root and does not start with `.`. -/
lemma forall_isName_normalize_iff (p : Path) :
    (∀ x ∈ p.normalize.segmt, isName x = true) ↔ Within p.segmt := by
  cases hsegs : p.segmt with
  | nil =>
      simp only [normalize, hsegs]
      exact iff_of_true (by simp) (by decide)
  | cons first rest =>
      simp only [normalize, hsegs]
      rw [within_cons_iff]
      cases hfirst : isName first with
      | true =>
          rw [forall_isName_normalizeLoop_iff (by simpa using hfirst)]
          simp
      | false =>
          refine iff_of_false (fun hall => ?_) (by simp)
          have hstay := mem_normalizeLoop_of_not_isName p.slashEnd rest hfirst
            (List.mem_cons_self (l := []))
          exact absurd (hall _ hstay) (by simp [hfirst])

lemma length_normalize {p : Path} (h : Within p.segmt) :
    p.normalize.segmt.length + p.segmt.count Segment.dotdot = p.segmt.countP isName := by
  cases hsegs : p.segmt with
  | nil => simp [normalize, hsegs]
  | cons first rest =>
      rw [hsegs, within_cons_iff] at h
      have hfirst : ∀ x ∈ [first], isName x = true := by simpa using h.1
      have hlen := length_normalizeLoop hfirst p.slashEnd h.2
      simp only [normalize, hsegs]
      rw [List.count_cons_of_ne (isName_iff.1 h.1).2, List.countP_cons_of_pos h.1, hlen,
        List.length_singleton, Nat.add_comm]

/-! ### Absolute paths -/

/-- The text with every run of slashes collapsed to one. -/
def collapse : Str → Str
  | [] => []
  | c :: s => if c = Byte.slash ∧ s.head? = some Byte.slash then collapse s else c :: collapse s

lemma collapse_append {x : Str} (hx : Byte.slash ∉ x) (s : Str) :
    collapse (x ++ s) = x ++ collapse s := by
  induction x with
  | nil => rfl
  | cons c x ih =>
      rw [List.mem_cons, not_or] at hx
      rw [List.cons_append, collapse, if_neg fun h => hx.1 h.1.symm, ih hx.2, List.cons_append]

/-- A slash and a segment are copied. -/
lemma collapse_segment (x : Segment) (s : Str) :
    collapse (Byte.slash :: (x.val ++ s)) = Byte.slash :: x.val ++ collapse s := by
  obtain ⟨c, t, hct⟩ := List.exists_cons_of_ne_nil x.property.1
  have hhead : (x.val ++ s).head? ≠ some Byte.slash := by
    intro h
    rw [hct, List.cons_append, List.head?_cons] at h
    exact x.property.2 (by simp [hct, Option.some.inj h])
  rw [collapse, if_neg fun h => hhead h.2, collapse_append x.property.2, List.cons_append]

lemma getLast?_append_slash (x w : Str) :
    (x ++ Byte.slash :: w).getLast? = (Byte.slash :: w).getLast? := by
  rw [List.getLast?_append, List.getLast?_cons]
  rfl

/-- What `assign` reads from a text behind a slash; where it finds no segments, there are slashes
only. -/
lemma collapse_slash (t : Str) :
    collapse (Byte.slash :: t) = Rfc3986.absText (assignLoop [] (by simp) t)
        ((Byte.slash :: t).getLast? == some Byte.slash) ∧
      (assignLoop [] (by simp) t = [] → (Byte.slash :: t).getLast? = some Byte.slash) := by
  induction t using lines_induction (p := (· == Byte.slash)) with
  | rest t ht =>
      have hslash : Byte.slash ∉ t := fun h => absurd (ht _ h) (by simp)
      by_cases hnil : t = []
      · subst hnil
        exact ⟨rfl, fun _ => rfl⟩
      · obtain ⟨x, rfl⟩ : ∃ x : Segment, x.val = t := ⟨⟨t, hnil, hslash⟩, rfl⟩
        have hlast : (Byte.slash :: x.val).getLast? ≠ some Byte.slash := by
          obtain ⟨c, u, hcu⟩ := List.exists_cons_of_ne_nil hnil
          rw [hcu, List.getLast?_cons_cons, ← hcu]
          exact fun h => hslash (List.mem_of_getLast? h)
        rw [assignLoop_segment_end]
        refine ⟨?_, fun h => absurd h (by simp)⟩
        have hcopy := collapse_segment x []
        rw [List.append_nil] at hcopy
        rw [hcopy, beq_eq_false_iff_ne.2 hlast]
        simp [Rfc3986.absText, Rfc3986.slashed_cons, Rfc3986.tail, collapse]
  | line y c t hy hc ih =>
      obtain rfl : c = Byte.slash := by simpa using hc
      have hslash : Byte.slash ∉ y := fun h => absurd (hy _ h) (by simp)
      by_cases hnil : y = []
      · subst hnil
        rw [List.nil_append, collapse, if_pos ⟨rfl, rfl⟩, List.getLast?_cons_cons]
        exact ih
      · obtain ⟨x, rfl⟩ : ∃ x : Segment, x.val = y := ⟨⟨y, hnil, hslash⟩, rfl⟩
        rw [assignLoop_segment, collapse_segment, ih.1, ← List.cons_append, getLast?_append_slash]
        refine ⟨?_, fun h => absurd h (by simp)⟩
        by_cases hsegs : assignLoop [] (by simp) t = []
        · rw [hsegs, ih.2 hsegs]
          simp [Rfc3986.absText, Rfc3986.slashed_cons, Rfc3986.tail]
        · rw [Rfc3986.absText, if_neg hsegs, Rfc3986.absText, if_neg (by simp),
            Rfc3986.slashed_cons, List.append_assoc]

/-- The text of an absolute path that was read is the text with its runs of slashes collapsed. -/
lemma get_assign_absolute {s : Str} (h : s.head? = some Byte.slash) :
    (assign s).get = collapse s ∧ ((assign s).segmt ≠ [] ∨ (assign s).slashEnd = true) := by
  obtain ⟨t, rfl⟩ := List.head?_eq_some_iff.1 h
  have hend : (assign (Byte.slash :: t)).slashEnd
      = ((Byte.slash :: t).getLast? == some Byte.slash) := by
    rw [List.getLast?_eq_some_getLast (List.cons_ne_nil _ t)]
    rfl
  obtain ⟨htext, hslashes⟩ := collapse_slash t
  refine ⟨?_, ?_⟩
  · rw [Rfc3986.absText_eq_get rfl, htext, hend]
    rfl
  · by_cases hsegs : assignLoop [] (by simp) t = []
    · right
      rw [hend, hslashes hsegs]
      rfl
    · exact Or.inl hsegs

/-- Names are pushed one after the other. -/
lemma foldl_mergeStep_of_isName {l : List Segment} (h : ∀ x ∈ l, isName x = true)
    (o : List Segment) : l.foldl mergeStep (o, false) = (o ++ l, false) := by
  induction l generalizing o with
  | nil => simp
  | cons i l ih =>
      obtain ⟨hi, hl⟩ := List.forall_mem_cons.1 h
      rw [List.foldl_cons, mergeStep_of_isName hi, ih hl, List.append_assoc, List.singleton_append]

/-- The stack holds names only. -/
lemma isName_foldl_mergeStep (l : List Segment) {acc : List Segment × Bool}
    (h : ∀ x ∈ acc.1, isName x = true) : ∀ x ∈ (l.foldl mergeStep acc).1, isName x = true := by
  induction l generalizing acc with
  | nil => exact h
  | cons i l ih =>
      refine ih ?_
      rw [mergeStep]
      split_ifs with hdot hdotdot hempty
      · exact h
      · exact h
      · exact fun x hx => h x (List.mem_of_mem_dropLast hx)
      · intro x hx
        rcases List.mem_append.1 hx with hx | hx
        · exact h x hx
        · rw [List.mem_singleton.1 hx]
          exact isName_iff.2 ⟨hdot, hdotdot⟩

/-- Section 5.2.4 on the text of an absolute path gives names only. -/
lemma removeDotSegments_collapse {s : Str} (h : s.head? = some Byte.slash) :
    Rfc3986.removeDotSegments [] (collapse s)
      = Rfc3986.absText ((assign s).segmt.foldl mergeStep ([], false)).1
          (((assign s).segmt.foldl mergeStep ([], false)).2 || (assign s).slashEnd) := by
  obtain ⟨htext, hsegs⟩ := get_assign_absolute h
  rw [← Rfc3986.removeDotSegments_eq_foldl _ _ _ _ hsegs, ← htext,
    Rfc3986.absText_eq_get (slashBegin_assign h), Rfc3986.absText, Rfc3986.slashed_nil]
  split
  · next hnil =>
      rw [hnil, (hsegs.resolve_left (not_not.2 hnil))]
      rfl
  · rfl

/-- The text of an absolute path determines its segments. -/
lemma absText_segs_inj {segs segs' : List Segment} {e e' : Bool}
    (h : Rfc3986.absText segs e = Rfc3986.absText segs' e') : segs = segs' := by
  have hread : ∀ (l : List Segment) (b : Bool), (assign (Rfc3986.absText l b)).segmt = l := by
    intro l b
    have hget := Rfc3986.absText_eq_get (p := { segmt := l, slashEnd := b, slashBegin := true }) rfl
    by_cases hl : l = []
    · subst hl
      rfl
    · rw [← hget, assign_get hl]
  rw [← hread segs e, h, hread]

/-- Normalizing an absolute path is section 5.2.4 on its text with the runs of slashes collapsed,
and leaves no dot segment, exactly if no `..` goes above the root and the first segment is not
`.`. -/
theorem get_normalize_eq_iff {s : Str} (h : s.head? = some Byte.slash) :
    ((assign s).normalize.get = Rfc3986.removeDotSegments [] (collapse s) ↔
        Within (assign s).segmt) ∧
      ((∀ x ∈ (assign s).normalize.segmt, x ≠ Segment.dot ∧ x ≠ Segment.dotdot) ↔
        Within (assign s).segmt) := by
  have hbegin := (slashBegin_normalize (assign s)).trans (slashBegin_assign h)
  simp only [← isName_iff]
  refine ⟨?_, forall_isName_normalize_iff _⟩
  rw [← forall_isName_normalize_iff, removeDotSegments_collapse h, Rfc3986.absText_eq_get hbegin,
    ← absText_normalize]
  constructor
  · intro heq
    rw [absText_segs_inj heq]
    exact isName_foldl_mergeStep _ (by simp)
  · intro hnames
    rw [foldl_mergeStep_of_isName hnames, List.nil_append, Bool.false_or]

theorem get_normalize_eq_iff_inside :
    (lit "//a/./b/..").head? = some Byte.slash ∧
      (assign (lit "//a/./b/..")).normalize.get
        = Rfc3986.removeDotSegments [] (collapse (lit "//a/./b/..")) :=
  ⟨rfl, (get_normalize_eq_iff rfl).1.2 (by decide)⟩

/-- The first segment is kept even if it is a dot segment. -/
theorem not_get_normalize_eq_first :
    (assign (lit "/../a")).normalize.get ≠ Rfc3986.removeDotSegments [] (collapse (lit "/../a")) ∧
      (assign (lit "/./a")).normalize.get
        ≠ Rfc3986.removeDotSegments [] (collapse (lit "/./a")) := by
  rw [removeDotSegments_collapse rfl, removeDotSegments_collapse rfl]
  decide

/-! ### Relative paths -/

/-- The segments all cancel exactly if every `..` removes a name and every name is removed. -/
lemma segmt_normalize_eq_nil_iff (p : Path) :
    p.normalize.segmt = [] ↔
      Within p.segmt ∧ p.segmt.count Segment.dotdot = p.segmt.countP isName := by
  constructor
  · intro hnil
    have hwithin : Within p.segmt := (forall_isName_normalize_iff p).1 (by simp [hnil])
    have hlen := length_normalize hwithin
    rw [hnil, List.length_nil, Nat.zero_add] at hlen
    exact ⟨hwithin, hlen⟩
  · rintro ⟨hwithin, hcount⟩
    have hlen := length_normalize hwithin
    exact List.length_eq_zero_iff.1 (by omega)

/-- A relative path stays relative exactly if not all of its segments cancel. -/
theorem relative_normalize_iff {s : Str} (hne : s ≠ []) (h : s.head? ≠ some Byte.slash) :
    (assign s).normalize.get.head? ≠ some Byte.slash ↔
      ¬(Within (assign s).segmt ∧
        (assign s).segmt.count Segment.dotdot = (assign s).segmt.countP isName) := by
  obtain ⟨hbegin, hsegs⟩ := segmt_assign_relative hne h
  have hbegin' := (slashBegin_normalize (assign s)).trans hbegin
  rw [not_iff_not, ← segmt_normalize_eq_nil_iff]
  constructor
  · intro hhead
    by_contra hnil
    -- the text starts with the first segment
    obtain ⟨c, t, hct⟩ := List.exists_cons_of_ne_nil (join_ne_nil hnil)
    rw [get_of_segmt_ne_nil hnil, hbegin', hct] at hhead
    exact join_head_ne_slash hct (Option.some.inj hhead)
  · intro hnil
    rw [get_of_segmt_eq_nil hnil, slashEnd_normalize hsegs hnil, Bool.or_true]
    rfl

theorem relative_normalize_iff_above :
    (assign (lit "a/../../b/..")).normalize.get.head? ≠ some Byte.slash :=
  (relative_normalize_iff (by decide) (by decide)).2 (by decide)

/-- A relative path that is taken back becomes the root. -/
theorem not_relative_normalize_cancel :
    (assign (lit "a/..")).normalize.get.head? = some Byte.slash := by
  decide

end Path

end Mycelium
