import Clojurust.Builtins.Arithmetic

/-!
# Remainders of exact numbers

`rem` and `mod` (`Builtins.Division`) on integers and ratios.

* `ratioRem_intCast` — the remainder of ratios is the truncated remainder on integers;
* `remainder_exact` — both builtins compute with rational numbers, unless both operands are 64-bit
  integers;
* `opposed_iff` — when the remainder and the divisor point in different directions, so that `mod` is
  not `rem`.
-/

namespace Clojurust.Builtins

open IntDivision Int

/-! ## Truncation -/

variable {b : Int} {x y : Value}

theorem tdiv_mul_mul {c a : Int} (hc : c ≠ 0) : (c * a).tdiv (c * b) = a.tdiv b := by
  rcases lt_or_gt_of_ne hc with hneg | hpos
  · have h := Int.mul_tdiv_mul_of_pos (-a) (-b) (Int.neg_pos_of_neg hneg)
    rw [Int.neg_mul_neg, Int.neg_mul_neg, Int.neg_tdiv, Int.tdiv_neg, Int.neg_neg] at h
    exact h
  · exact Int.mul_tdiv_mul_of_pos a b hpos

theorem ratioToInteger_div (a : Int) (hb : b ≠ 0) : ratioToInteger ((a : ℚ) / b) = a.tdiv b := by
  obtain ⟨c, ha, hb'⟩ := Rat.exists_eq_mul_div_num_and_eq_mul_div_den a hb
  have hc : c ≠ 0 := by
    rintro rfl
    exact hb (by rw [hb', zero_mul])
  calc ratioToInteger ((a : ℚ) / b)
      = (c * ((a : ℚ) / b).num).tdiv (c * ((a : ℚ) / b).den) := (tdiv_mul_mul hc).symm
    _ = a.tdiv b := by rw [← ha, ← hb']

theorem ratioRem_intCast (a : Int) (hb : b ≠ 0) : ratioRem (a : ℚ) b = ((a.tmod b : Int) : ℚ) := by
  have hsplit : (a : ℚ) = b * (a.tdiv b : Int) + (a.tmod b : Int) := by
    exact_mod_cast (mul_tdiv_add_tmod a b).symm
  rw [ratioRem, ratioToInteger_div a hb]
  exact sub_eq_of_eq_add' hsplit

theorem sub_ratioToInteger (q : ℚ) :
    q - ratioToInteger q = ((q.num.tmod q.den : Int) : ℚ) / q.den := by
  have hsplit : (q.num : ℚ) = q.den * (q.num.tdiv q.den : Int) + (q.num.tmod q.den : Int) := by
    exact_mod_cast (mul_tdiv_add_tmod q.num q.den).symm
  have hden : (q.den : ℚ) ≠ 0 := Nat.cast_ne_zero.mpr q.den_ne_zero
  rw [eq_div_iff hden, sub_mul, Rat.mul_den_eq_num, ratioToInteger, mul_comm]
  exact sub_eq_of_eq_add' hsplit

theorem den_dvd_num_iff (q : ℚ) : (q.den : Int) ∣ q.num ↔ q.den = 1 := by
  rw [natCast_dvd]
  refine ⟨fun h => ?_, fun h => ?_⟩
  · exact Nat.Coprime.eq_one_of_dvd q.reduced.symm h
  · rw [h]
    exact Nat.one_dvd _

theorem sub_ratioToInteger_neg_iff (q : ℚ) : q - ratioToInteger q < 0 ↔ ¬ (q.den = 1 ∨ 0 < q) := by
  have hden : (0 : ℚ) < q.den := Nat.cast_pos.mpr q.den_pos
  have hsign := sign_tmod q.num q.den
  rw [sub_ratioToInteger, div_neg_iff, or_iff_right fun h => absurd hden (not_lt_of_gt h.2),
    and_iff_left hden, cast_lt_zero, ← sign_eq_neg_one_iff_neg, hsign, not_or, not_lt,
    ← den_dvd_num_iff]
  by_cases hdvd : (q.den : Int) ∣ q.num
  · simp [hdvd]
  · have hne : q ≠ 0 := by
      rintro rfl
      exact hdvd ⟨0, rfl⟩
    rw [if_neg hdvd, sign_eq_neg_one_iff_neg, Rat.num_neg, and_iff_right hdvd]
    grind

theorem opposed_iff (a : ℚ) {b : ℚ} (hb : b ≠ 0) :
    ((0 < ratioRem a b ∧ b < 0) ∨ (ratioRem a b < 0 ∧ 0 < b)) ↔
      ¬ ((a / b).den = 1 ∨ 0 < a * b) := by
  have hrem : ratioRem a b = b * (a / b - ratioToInteger (a / b)) := by
    rw [ratioRem, mul_sub, mul_div_cancel₀ _ hb]
  have hpos : 0 < a * b ↔ 0 < a / b := by rw [mul_pos_iff, div_pos_iff]
  rw [hpos, ← sub_ratioToInteger_neg_iff, hrem]
  rcases lt_or_gt_of_ne hb with hneg | hpos
  · rw [or_iff_left fun h => absurd hneg (not_lt_of_gt h.2), and_iff_left hneg, mul_pos_iff,
      or_iff_right fun h => absurd hneg (not_lt_of_gt h.1), and_iff_right hneg]
  · rw [or_iff_right fun h => absurd hpos (not_lt_of_gt h.2), and_iff_left hpos, mul_neg_iff,
      or_iff_left fun h => absurd hpos (not_lt_of_gt h.1), and_iff_right hpos]

/-! ## The builtins -/

/-- Not two 64-bit integers. -/
def Mixed (x y : Value) : Prop := ∀ m n : Int64, x = .long m → y ≠ .long n

theorem long_or_mixed (x y : Value) : (∃ m n, x = .long m ∧ y = .long n) ∨ Mixed x y := by
  refine or_iff_not_imp_left.mpr fun hlong m n hm hn => ?_
  exact hlong ⟨m, n, hm, hn⟩

/-- The operation on big integers is the one on ratios. -/
def RemainderOps.Lifts (ops : RemainderOps) : Prop :=
  ∀ a b : Int, b ≠ 0 → ((ops.bigInt a b : Int) : ℚ) = ops.ratio a b

theorem remainder_ratio (num : Arith) (ops : RemainderOps) (hx : Exact x) (hy : Exact y)
    (hratio : (isRatio x || isRatio y) = true) : remainder num ops x y =
      if number y = 0 then other (ops.name ++ " by zero")
      else .ok (simplifyRatioWith (ops.ratio (number x) (number y)) true) := by
  have hrun : remainder num ops x y =
      if number y = 0 then other (ops.name ++ " by zero")
      else if (ops.ratio (number x) (number y)).den = 1 then
        .ok (.bigInt (ratioToInteger (ops.ratio (number x) (number y))))
      else .ok (.ratio (ops.ratio (number x) (number y))) := by
    cases hx <;> cases hy <;> first | rfl | cases hratio
  rw [hrun, simplifyRatioWith]
  grind

theorem remainder_bigInt (num : Arith) (ops : RemainderOps) (hx : Exact x) (hy : Exact y)
    (hratio : ¬ (isRatio x || isRatio y) = true) (hmixed : Mixed x y) :
    ∃ a b : Int, number x = a ∧ number y = b ∧ remainder num ops x y =
      if b = 0 then other (ops.name ++ " by zero") else .ok (.bigInt (ops.bigInt a b)) := by
  cases hx with
  | long m =>
    cases hy with
    | long n => exact absurd rfl (hmixed m n rfl)
    | bigInt n => exact ⟨_, _, rfl, rfl, rfl⟩
    | ratio r => exact absurd rfl hratio
  | bigInt m =>
    cases hy with
    | long | bigInt => exact ⟨_, _, rfl, rfl, rfl⟩
    | ratio r => exact absurd rfl hratio
  | ratio r => exact absurd rfl hratio

theorem remainder_exact (num : Arith) {ops : RemainderOps} (hops : ops.Lifts)
    (hx : Exact x) (hy : Exact y) (hmixed : Mixed x y) :
    (number y = 0 → remainder num ops x y = other (ops.name ++ " by zero")) ∧
      (number y ≠ 0 → Yields (remainder num ops x y) (ops.ratio (number x) (number y))) := by
  by_cases hratio : (isRatio x || isRatio y) = true
  · rw [remainder_ratio num ops hx hy hratio]
    refine ⟨fun hzero => if_pos hzero, fun hzero => ?_⟩
    rw [if_neg hzero]
    exact ⟨_, rfl, numberOf_simplifyRatioWith _ true⟩
  · obtain ⟨a, b, hxa, hyb, hremainder⟩ := remainder_bigInt num ops hx hy hratio hmixed
    rw [hremainder, hxa, hyb, cast_eq_zero]
    refine ⟨fun hzero => if_pos hzero, fun hzero => ?_⟩
    rw [if_neg (cast_ne_zero.mp hzero)]
    exact ⟨_, rfl, congrArg some (hops a b (cast_ne_zero.mp hzero))⟩

/-- `mod` of ratios. -/
def ratioMod (a b : ℚ) : ℚ :=
  if (0 < ratioRem a b ∧ b < 0) ∨ (ratioRem a b < 0 ∧ 0 < b) then ratioRem a b + b else ratioRem a b

theorem ratioMod_intCast (a : Int) (hb : b ≠ 0) : ratioMod (a : ℚ) b =
    ((if Opposed (a.tmod b) b then a.tmod b + b else a.tmod b : Int) : ℚ) := by
  have hopposed : (0 < ((a.tmod b : Int) : ℚ) ∧ (b : ℚ) < 0) ∨ (((a.tmod b : Int) : ℚ) < 0 ∧ 0 < (b : ℚ)) ↔
      Opposed (a.tmod b) b := by simp only [Opposed, cast_pos, cast_lt_zero]
  rw [ratioMod, ratioRem_intCast a hb]
  by_cases h : Opposed (a.tmod b) b
  · rw [if_pos (hopposed.mpr h), if_pos h, cast_add]
  · rw [if_neg fun h' => h (hopposed.mp h'), if_neg h]

/-- The quotient is an integer, or the numbers have the same sign. -/
def Aligned (x y : Value) : Prop := (number x / number y).den = 1 ∨ 0 < number x * number y

theorem ratioRem_eq_ratioMod_iff (hy : number y ≠ 0) :
    ratioRem (number x) (number y) = ratioMod (number x) (number y) ↔ Aligned x y := by
  rw [Aligned, ← not_iff_not, ← opposed_iff (number x) hy, ratioMod]
  grind

section Builtins

variable (num : Arith) (checkOverflow : Bool) {x y : Value} (hx : Exact x) (hy : Exact y)

include hx hy

theorem builtinRem_exact (hmixed : Mixed x y) :
    (number y = 0 → builtinRem num x y = other "rem by zero") ∧
      (number y ≠ 0 → Yields (builtinRem num x y) (ratioRem (number x) (number y))) := by
  refine remainder_exact num (fun a b hb => ?_) hx hy hmixed
  exact (ratioRem_intCast a hb).symm

theorem builtinMod_exact (hmixed : Mixed x y) :
    (number y = 0 → builtinMod num checkOverflow x y = other "mod by zero") ∧ (number y ≠ 0 →
        Yields (builtinMod num checkOverflow x y) (ratioMod (number x) (number y))) := by
  refine remainder_exact num (fun a b hb => ?_) hx hy hmixed
  exact (ratioMod_intCast a hb).symm

end Builtins

end Clojurust.Builtins
