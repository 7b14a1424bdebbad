import Mathlib.Data.List.DropRight
import Mycelium.Lib.Cut

/-!
# Lines

A text is cut into lines by separators.  Every separator ends a line, and what follows the last one
is left over: it is a line that may go on in the text that comes next.  A program that reads a text
in pieces calls a function on the lines that are complete and keeps what is left over, and
`lines_append` and `leftover_append` say that the pieces do not matter to it.
-/

namespace Lib

variable {α σ : Type*} {p : α → Bool}

/-- The loop that calls `body` on every line that ends in a separator; `line` is what has been read
of the line that is next. -/
def eachLine (p : α → Bool) (body : σ → List α → σ) (s : σ) (line : List α) : List α → σ × List α
  | [] => (s, line)
  | c :: w =>
      if p c then eachLine p body (body s line) [] w else eachLine p body s (line ++ [c]) w

/-- The lines that end in a separator. -/
def lines (p : α → Bool) (w : List α) : List (List α) := (w.splitOnP p).dropLast

/-- What follows the last separator. -/
def leftover (p : α → Bool) (w : List α) : List α := w.rtakeWhile (!p ·)

/-! ### The first line -/

lemma lines_of_forall {w : List α} (h : ∀ c ∈ w, p c = false) : lines p w = [] := by
  rw [lines, List.splitOnP_eq_singleton h]
  rfl

lemma leftover_of_forall {w : List α} (h : ∀ c ∈ w, p c = false) : leftover p w = w := by
  rw [leftover, List.rtakeWhile_eq_self_iff]
  intro c hc
  simp [h c hc]

lemma lines_append_cons {x w : List α} {c : α} (hx : ∀ d ∈ x, p d = false) (hc : p c = true) :
    lines p (x ++ c :: w) = x :: lines p w := by
  rw [lines, List.splitOnP_append_cons_of_forall_mem hx c hc,
    List.dropLast_cons_of_ne_nil (List.splitOnP_ne_nil p w)]
  rfl

lemma leftover_append_cons (x w : List α) {c : α} (hc : p c = true) :
    leftover p (x ++ c :: w) = leftover p w := by
  rw [leftover, List.rtakeWhile, List.reverse_append, List.reverse_cons, List.append_assoc,
    List.singleton_append, takeWhile_append_cons_of_neg (by simp [hc])]
  rfl

lemma not_separator_concat {x : List α} {c : α} (hx : ∀ d ∈ x, p d = false) (hc : p c = false) :
    ∀ d ∈ x ++ [c], p d = false := by
  intro d hd
  rcases List.mem_append.1 hd with hd | hd
  · exact hx d hd
  · rwa [List.mem_singleton.1 hd]

/-- Induction on the lines of a text. -/
lemma lines_induction {P : List α → Prop} (rest : ∀ w, (∀ c ∈ w, p c = false) → P w)
    (line : ∀ x c w, (∀ d ∈ x, p d = false) → p c = true → P w → P (x ++ c :: w)) (w : List α) :
    P w := by
  have hsplit := (List.takeWhile_append_dropWhile (p := (!p ·)) (l := w)).symm
  have hx : ∀ d ∈ w.takeWhile (!p ·), p d = false := fun d hd => by
    simpa using List.mem_takeWhile_imp hd
  cases hw : w.dropWhile (!p ·) with
  | nil =>
      rw [hw, List.append_nil] at hsplit
      exact rest w (hsplit ▸ hx)
  | cons c v =>
      have hc : p c = true := by
        simpa using head?_dropWhile (p := (!p ·)) (x := w) (d := c) (by rw [hw]; rfl)
      rw [hw] at hsplit
      have hlt : v.length < w.length := by
        rw [hsplit, List.length_append, List.length_cons]
        omega
      rw [hsplit]
      exact line _ c v hx hc (lines_induction rest line v)
termination_by w.length

/-! ### All lines -/

/-- The lines and what is left over are the pieces between the separators. -/
lemma splitOnP_eq_lines (p : α → Bool) (w : List α) :
    w.splitOnP p = lines p w ++ [leftover p w] := by
  induction w using lines_induction (p := p) with
  | rest w hw =>
      rw [lines_of_forall hw, leftover_of_forall hw, List.splitOnP_eq_singleton hw,
        List.nil_append]
  | line x c w hx hc ih =>
      rw [lines_append_cons hx hc, leftover_append_cons x w hc, List.cons_append, ← ih,
        List.splitOnP_append_cons_of_forall_mem hx c hc]

/-- The lines of a text in which every line is ended. -/
lemma lines_of_splitOnP {w : List α} {ls : List (List α)} (h : w.splitOnP p = ls ++ [[]]) :
    lines p w = ls := by
  rw [lines, h, List.dropLast_concat]

lemma not_separator_leftover (p : α → Bool) (w : List α) : ∀ c ∈ leftover p w, p c = false := by
  intro c hc
  simpa using List.mem_rtakeWhile_imp hc

/-- What is left over is read again with the text that comes next. -/
lemma lines_append (p : α → Bool) (w v : List α) :
    lines p (w ++ v) = lines p w ++ lines p (leftover p w ++ v) := by
  induction w using lines_induction (p := p) with
  | rest w hw => rw [lines_of_forall hw, leftover_of_forall hw, List.nil_append]
  | line x c w hx hc ih =>
      rw [List.append_assoc, List.cons_append, lines_append_cons hx hc, lines_append_cons hx hc,
        leftover_append_cons x w hc, ih, List.cons_append]

lemma leftover_append (p : α → Bool) (w v : List α) :
    leftover p (w ++ v) = leftover p (leftover p w ++ v) := by
  induction w using lines_induction (p := p) with
  | rest w hw => rw [leftover_of_forall hw]
  | line x c w hx hc ih =>
      rw [List.append_assoc, List.cons_append, leftover_append_cons _ _ hc,
        leftover_append_cons _ _ hc, ih]

/-- The loop calls the function on all lines in turn. -/
lemma eachLine_eq (body : σ → List α → σ) (s : σ) {line : List α} (hline : ∀ c ∈ line, p c = false)
    (w : List α) :
    eachLine p body s line w = ((lines p (line ++ w)).foldl body s, leftover p (line ++ w)) := by
  induction w generalizing s line with
  | nil =>
      rw [List.append_nil, lines_of_forall hline, leftover_of_forall hline]
      rfl
  | cons c w ih =>
      rw [eachLine]
      split
      · next hc =>
          rw [ih _ (by simp), lines_append_cons hline hc, leftover_append_cons line w hc]
          rfl
      · next hc =>
          rw [ih _ (not_separator_concat hline (by simpa using hc)), List.append_assoc,
            List.singleton_append]

end Lib
