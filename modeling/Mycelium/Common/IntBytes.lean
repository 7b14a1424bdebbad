import Mycelium.Common.Bytes

/-!
# Integers in network order

`int_put` writes a signed integer to a buffer, the most significant byte first, and `int_read` reads
it back.  The value of a type of `w` bits is a `BitVec w`.  `int_put` takes the bytes from a
variable `tmp` that it only sets for a negative value, so that a value that is not negative comes
back when the memory of the variable happens to hold it.
-/

namespace Mycelium

namespace IntBytes

variable {w : ℕ}

/-- The widths of the signed integer types. -/
def widths : List ℕ := [8, 16, 32, 64]

/-- `0 - t`, assigned to a variable of the type of `t`.  A type narrower than `int` is promoted to
it.  The result is `none` when the subtraction overflows. -/
def negate (t : BitVec w) : Option (BitVec w) :=
  let x := t.signExtend (max w 32)
  if x = BitVec.intMin (max w 32) then none else some ((0 - x).setWidth w)

/-- The loop of `int_put`, when `n` bytes are left to write. -/
def putLoop (tmp : BitVec 64) : ℕ → Str
  | 0 => []
  | n + 1 => UInt8.ofBitVec (((tmp >>> (8 * n)) &&& 0xff).setWidth 8) :: putLoop tmp n

/-- `int_put`; `tmp` is what the memory of the local variable holds at the beginning, and `b` is the
buffer. -/
def intPut (tmp : BitVec 64) (b : Str) (t : BitVec w) : Option Str := do
  let tmp ← if t.slt 0 then (negate t).map fun t => 0 - t.signExtend 64 else some tmp
  some (putLoop tmp (w / 8) ++ b.drop (w / 8))

/-- The loop of `int_read`, when `n` bytes are left to read; `none` when it reads beyond the buffer.
What the promotion to `int` adds on the left is lost when the result is assigned. -/
def readLoop (res : BitVec w) : ℕ → Str → Option (BitVec w)
  | 0, _ => some res
  | _ + 1, [] => none
  | n + 1, p :: b => readLoop (res ||| (p.toBitVec.setWidth w <<< (8 * n))) n b

/-- `int_read`. -/
def intRead (b : Str) : Option (BitVec w) := readLoop 0 (w / 8) b

/-! ### The bytes -/

lemma setWidth_and_mask (x : BitVec 64) : (x &&& 0xff).setWidth 8 = x.setWidth 8 := by
  rw [BitVec.setWidth_and, show (0xff : BitVec 64).setWidth 8 = BitVec.allOnes 8 from rfl,
    BitVec.and_allOnes]

/-- The loop of `int_read` puts the bits of `tmp` in the places where the loop of `int_put` has
taken them. -/
lemma readLoop_putLoop (tmp : BitVec 64) (n : ℕ) (res : BitVec w) (b : Str) :
    ∃ x, readLoop res n (putLoop tmp n ++ b) = some x ∧
      ∀ j < w, x.getLsbD j = (res.getLsbD j || (decide (j < 8 * n) && tmp.getLsbD j)) := by
  induction n generalizing res with
  | zero => exact ⟨res, rfl, fun j _ => by simp⟩
  | succ n ih =>
      obtain ⟨x, hx, hbits⟩ := ih
        (res ||| ((((tmp >>> (8 * n)) &&& 0xff).setWidth 8).setWidth w <<< (8 * n)))
      refine ⟨x, hx, fun j hj => ?_⟩
      -- the byte of this turn has the bits from `8 * n` on
      have hbyte : ((((tmp >>> (8 * n)) &&& 0xff).setWidth 8).setWidth w <<< (8 * n)).getLsbD j
          = (decide (8 * n ≤ j) && decide (j < 8 * (n + 1)) && tmp.getLsbD j) := by
        rw [setWidth_and_mask]
        by_cases hle : 8 * n ≤ j
        · have hback : 8 * n + (j - 8 * n) = j := by omega
          have hlt : j - 8 * n < 8 ↔ j < 8 * (n + 1) := by omega
          simp [hj, hle, hback, hlt]
        · simp [hle, show j < 8 * n by omega]
      rw [hbits j hj, BitVec.getLsbD_or, hbyte]
      by_cases hlow : j < 8 * n
      · simp [hlow, show ¬8 * n ≤ j by omega, show j < 8 * (n + 1) by omega]
      · simp [hlow, show 8 * n ≤ j by omega]

/-- What is read is the lower part of what `tmp` was. -/
lemma intRead_putLoop (hw : w ∈ widths) (tmp : BitVec 64) (b : Str) :
    intRead (putLoop tmp (w / 8) ++ b) = some (tmp.setWidth w) := by
  obtain ⟨x, hx, hbits⟩ := readLoop_putLoop tmp (w / 8) (0 : BitVec w) b
  have hbytes : 8 * (w / 8) = w := by
    fin_cases hw <;> rfl
  rw [intRead, hx]
  congr 1
  refine BitVec.eq_of_getLsbD_eq fun j hj => ?_
  rw [hbits j hj, hbytes]
  simp [hj]

/-! ### The sign -/

lemma negate_eq_none_iff (hw : w ∈ widths) (t : BitVec w) :
    negate t = none ↔ 32 ≤ w ∧ t.toInt = -2 ^ (w - 1) := by
  have hpos : 0 < w := by
    fin_cases hw <;> decide
  have hmin : t.signExtend (max w 32) = BitVec.intMin (max w 32) ↔
      t.toInt = -2 ^ (max w 32 - 1) := by
    rw [← BitVec.toInt_inj, BitVec.toInt_signExtend_of_le (le_max_left w 32),
      BitVec.toInt_intMin_of_pos (by omega)]
  have hlow := BitVec.le_toInt t
  simp only [negate, ite_eq_left_iff, reduceCtorEq, imp_false, not_not, hmin]
  by_cases hle : 32 ≤ w
  · simp [hle]
  · -- a narrow type has no value that small
    have hpow : (2 : ℤ) ^ (w - 1) < 2 ^ 31 := by
      refine pow_lt_pow_right₀ (by decide) (by omega)
    rw [max_eq_right (by omega)]
    simp only [hle, false_and, iff_false]
    intro h
    rw [h] at hlow
    omega

/-- The two negations cancel. -/
lemma setWidth_neg_signExtend {t u : BitVec w} (hw : w ∈ widths) (h : negate t = some u) :
    (0 - u.signExtend 64).setWidth w = t := by
  have hle : w ≤ 64 := by
    fin_cases hw <;> decide
  have hback {v : ℕ} (x : BitVec w) (hv : w ≤ v) : (x.signExtend v).setWidth w = x := by
    refine BitVec.eq_of_getLsbD_eq fun j hj => ?_
    have hjv : j < v := Nat.lt_of_lt_of_le hj hv
    rw [BitVec.getLsbD_setWidth, BitVec.getLsbD_signExtend, if_pos hj]
    simp [hj, hjv]
  rw [negate, Option.ite_none_left_eq_some, Option.some.injEq] at h
  rw [zero_sub, BitVec.setWidth_neg_of_le hle, hback u hle, ← h.2, zero_sub,
    BitVec.setWidth_neg_of_le (le_max_left w 32), hback t (le_max_left w 32), BitVec.neg_neg]

/-- A negative value comes back unless its negation overflows; another value comes back when `tmp`
is congruent to it. -/
theorem intRead_intPut_iff (hw : w ∈ widths) (tmp : BitVec 64) (b : Str) (t : BitVec w) :
    (intPut tmp b t).bind intRead = some t ↔
      (t.toInt < 0 ∧ ¬(32 ≤ w ∧ t.toInt = -2 ^ (w - 1))) ∨ (0 ≤ t.toInt ∧ tmp.setWidth w = t) := by
  have hzero : t.slt 0 = true ↔ t.toInt < 0 := by
    rw [BitVec.slt_iff_toInt_lt, show (0 : BitVec w).toInt = 0 from BitVec.toInt_zero]
  by_cases hneg : t.toInt < 0
  · have hslt : t.slt 0 = true := hzero.2 hneg
    rw [← negate_eq_none_iff hw]
    simp only [intPut, hslt, if_true, hneg, true_and, not_le.2 hneg, false_and, or_false]
    cases h : negate t with
    | none => simp
    | some u =>
        simp only [Option.map_some, Option.bind_eq_bind, Option.bind_some, reduceCtorEq,
          not_false_eq_true, iff_true]
        rw [intRead_putLoop hw, setWidth_neg_signExtend hw h]
  · have hslt : t.slt 0 = false := Bool.eq_false_iff.2 (mt hzero.1 hneg)
    simp only [intPut, hslt, Bool.false_eq_true, if_false, hneg, false_and, false_or, not_lt.1 hneg,
      true_and, Option.bind_eq_bind, Option.bind_some]
    rw [intRead_putLoop hw, Option.some.injEq]

theorem intRead_intPut_minusTwo :
    (16 : ℕ) ∈ widths ∧ (intPut 0x1234 [1, 2, 3] (-2 : BitVec 16)).bind intRead
      = some (-2 : BitVec 16) :=
  ⟨by decide, (intRead_intPut_iff (by decide) _ _ _).2 (.inl (by decide))⟩

/-- A value that is not negative comes back as what the memory of `tmp` held. -/
theorem not_intRead_intPut :
    (32 : ℕ) ∈ widths ∧ (intPut 0 [0, 0, 0, 0] (5 : BitVec 32)).bind intRead
      = some (0 : BitVec 32) ∧
      (intPut 0 [0, 0, 0, 0] (5 : BitVec 32)).bind intRead ≠ some (5 : BitVec 32) := by
  decide

end IntBytes

end Mycelium
