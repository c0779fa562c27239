import Clojurust.Lib.Float64
import Mathlib.Tactic.Linarith
import Mathlib.Tactic.Positivity

/-!
# The numbers that doubles stand for

* `F64.scaled` — the magnitude of a double in units of the smallest subnormal, strictly increasing
  with the bits (`scaled_strictMono`);
* `Extended` — a rational or an infinity, with a second zero below zero;
* `F64.extended` — the number of a double; `F64.totalCmp_extended` — the total order on doubles that
  are no NaN is the order of their numbers, `F64.normal_eq_iff` — and so is equality.
-/

/-- A rational, or an infinity (`infinity` is then `-1` or `1`); `zero` is `-1` for negative zero. -/
@[ext] structure Extended where
  infinity : Int
  value : ℚ
  zero : Int
  deriving DecidableEq

namespace Extended

/-- The extended number that is a rational. -/
def ofRat (q : ℚ) : Extended := ⟨0, q, 0⟩

/-- Infinities outermost, then by value, negative zero below zero. -/
def cmp : Extended → Extended → Ordering :=
  compareLex (compareOn infinity) (compareLex (compareOn value) (compareOn zero))

instance : Std.TransCmp cmp :=
  inferInstanceAs (Std.TransCmp (compareLex (compareOn infinity)
    (compareLex (compareOn value) (compareOn zero))))

theorem cmp_def (a b : Extended) : cmp a b =
    (compare a.infinity b.infinity).then ((compare a.value b.value).then (compare a.zero b.zero)) :=
  rfl

variable {a : Extended}

theorem cmp_eq_iff {b : Extended} : cmp a b = .eq ↔ a = b := by
  simp only [cmp_def, Ordering.then_eq_eq, compare_eq_iff_eq]
  exact Extended.ext_iff.symm

theorem cmp_ofRat (q r : ℚ) : cmp (ofRat q) (ofRat r) = compare q r := by
  simp [cmp_def, ofRat]

theorem cmp_ofRat_right {q : ℚ} (hfinite : a.infinity = 0)
    (hzero : a.zero = 0 ∨ a.value ≠ q) : cmp a (ofRat q) = compare a.value q := by
  rw [cmp_def, hfinite]
  simp only [ofRat]
  rcases hzero with hzero | hne
  · rw [hzero]
    simp
  · rcases lt_or_gt_of_ne hne with hlt | hgt
    · rw [compare_lt_iff_lt.mpr hlt]
      rfl
    · rw [compare_gt_iff_gt.mpr hgt]
      rfl

end Extended

namespace F64

/-- The distance from zero, in units of the smallest subnormal. -/
def scaled (magnitude : Nat) : Nat :=
  if magnitude < 2 ^ 52 then magnitude
  else (2 ^ 52 + magnitude % 2 ^ 52) * 2 ^ (magnitude / 2 ^ 52 - 1)

theorem scaled_lt_succ (m : Nat) : scaled m < scaled (m + 1) := by
  unfold scaled
  by_cases hsub : m < 2 ^ 52
  · rw [if_pos hsub]
    split
    · omega
    · -- the first normal number
      grind
  · rw [if_neg hsub, if_neg (by omega)]
    by_cases hcarry : m % 2 ^ 52 + 1 = 2 ^ 52
    · -- the next exponent
      have hdiv : (m + 1) / 2 ^ 52 = m / 2 ^ 52 + 1 := by omega
      have hmod : (m + 1) % 2 ^ 52 = 0 := by omega
      have hexp : m / 2 ^ 52 + 1 - 1 = m / 2 ^ 52 - 1 + 1 := by omega
      rw [hdiv, hmod, hexp]
      grind
    · have hdiv : (m + 1) / 2 ^ 52 = m / 2 ^ 52 := by omega
      have hmod : (m + 1) % 2 ^ 52 = m % 2 ^ 52 + 1 := by omega
      rw [hdiv, hmod]
      simp

theorem scaled_strictMono : StrictMono scaled := strictMono_nat_of_lt_succ scaled_lt_succ

/-- The number of a finite double. -/
def value (x : F64) : ℚ :=
  (if x.isNeg then -(scaled x.magnitude : ℚ) else scaled x.magnitude) / 2 ^ 1074

def isInfinite (x : F64) : Bool := decide (x.magnitude = infMagnitude)

/-- The number of a double that is no NaN. -/
def extended (x : F64) : Extended :=
  if x.isInfinite then ⟨if x.isNeg then -1 else 1, 0, 0⟩
  else ⟨0, x.value, if x.isNeg && x.isZero then -1 else 0⟩

variable {x y : F64}

theorem extended_of_infinite (h : x.magnitude = infMagnitude) :
    x.extended = ⟨if x.isNeg then -1 else 1, 0, 0⟩ := by simp [extended, isInfinite, h]

theorem extended_of_finite (h : x.magnitude ≠ infMagnitude) :
    x.extended = ⟨0, x.value, if x.isNeg && x.isZero then -1 else 0⟩ := by
  simp [extended, isInfinite, h]

theorem extended_zero (x : F64) :
    x.extended.zero = 0 ∨ x.extended.zero = -1 ∧ x.extended.value = 0 := by
  by_cases hinf : x.magnitude = infMagnitude
  · rw [extended_of_infinite hinf]
    exact .inl rfl
  · rw [extended_of_finite hinf]
    by_cases hzero : (x.isNeg && x.isZero) = true
    · have hmag : x.magnitude = 0 := by simp_all [isZero]
      simp [hzero, value, hmag, scaled]
    · exact .inl (if_neg hzero)

theorem compare_scaled (m n : Nat) :
    compare ((scaled m : ℚ) / 2 ^ 1074) ((scaled n : ℚ) / 2 ^ 1074) = compare m n ∧
      compare (-(scaled m : ℚ) / 2 ^ 1074) (-(scaled n : ℚ) / 2 ^ 1074) = compare n m := by
  have hunit : StrictMono (fun q : ℚ => q / 2 ^ 1074) := strictMono_div_right_of_pos (by positivity)
  have hcast : StrictMono (fun m : Nat => (scaled m : ℚ)) := Nat.strictMono_cast.comp scaled_strictMono
  rw [← cmp_eq_compare, ← cmp_eq_compare, ← cmp_eq_compare, ← cmp_eq_compare]
  refine ⟨(hunit.comp hcast).cmp_map_eq m n, ?_⟩
  have hneg : StrictAnti (fun m : Nat => -(scaled m : ℚ) / 2 ^ 1074) :=
    fun a b hab => hunit (neg_lt_neg (hcast hab))
  exact hneg.cmp_map_eq m n

theorem scaled_eq_zero_iff {m : Nat} : scaled m = 0 ↔ m = 0 :=
  scaled_strictMono.injective.eq_iff' rfl

theorem magnitude_le_of_not_isNaN (h : x.isNaN = false) : x.magnitude ≤ infMagnitude := by
  simpa [isNaN] using h

theorem cmp_extended_of_eq {neg : Bool} (hx : x.magnitude ≤ infMagnitude)
    (hy : y.magnitude ≤ infMagnitude) (hsx : x.isNeg = neg) (hsy : y.isNeg = neg) :
    x.extended.cmp y.extended =
      if neg then compare y.magnitude x.magnitude else compare x.magnitude y.magnitude := by
  by_cases hix : x.magnitude = infMagnitude
  · rw [extended_of_infinite hix, hsx]
    by_cases hiy : y.magnitude = infMagnitude
    · rw [extended_of_infinite hiy, hsy, hix, hiy]
      cases neg <;> simp [Extended.cmp_def]
    · rw [extended_of_finite hiy, Nat.compare_eq_lt.mpr (by omega), Nat.compare_eq_gt.mpr (by omega)]
      cases neg <;> rfl
  · rw [extended_of_finite hix]
    by_cases hiy : y.magnitude = infMagnitude
    · rw [extended_of_infinite hiy, hsy, Nat.compare_eq_gt.mpr (by omega), Nat.compare_eq_lt.mpr (by omega)]
      cases neg <;> rfl
    · rw [extended_of_finite hiy, Extended.cmp_def]
      cases neg with
      | false =>
        simp only [value, hsx, hsy, Bool.false_eq_true, if_false, (compare_scaled _ _).1]
        simp
      | true =>
        simp only [value, hsx, hsy, if_true, (compare_scaled _ _).2]
        -- the sign of a zero is looked at only between equal magnitudes
        cases hcmp : compare y.magnitude x.magnitude with
        | lt | gt => simp
        | eq =>
          have hmag : y.magnitude = x.magnitude := Nat.compare_eq_eq.mp hcmp
          simp [isZero, hmag]

theorem cmp_extended_of_neg (hsx : x.isNeg = false) (hsy : y.isNeg = true) :
    x.extended.cmp y.extended = .gt := by
  by_cases hix : x.magnitude = infMagnitude
  · rw [extended_of_infinite hix, hsx]
    by_cases hiy : y.magnitude = infMagnitude
    · rw [extended_of_infinite hiy, hsy]
      rfl
    · rw [extended_of_finite hiy]
      rfl
  · rw [extended_of_finite hix]
    by_cases hiy : y.magnitude = infMagnitude
    · rw [extended_of_infinite hiy, hsy]
      rfl
    · rw [extended_of_finite hiy, Extended.cmp_def]
      simp only [value, hsx, hsy, Bool.false_eq_true, if_false, if_true, Bool.false_and, Bool.true_and]
      have hle : -(scaled y.magnitude : ℚ) / 2 ^ 1074 ≤ (scaled x.magnitude : ℚ) / 2 ^ 1074 := by
        gcongr
        exact (neg_nonpos.mpr (Nat.cast_nonneg _)).trans (Nat.cast_nonneg _)
      rcases hle.lt_or_eq with hlt | heq
      · rw [compare_gt_iff_gt.mpr hlt]
        rfl
      · -- both are zero, and the zeros are told apart
        have hsum : (scaled x.magnitude : ℚ) + scaled y.magnitude = 0 := by
          rw [div_left_inj' (by positivity)] at heq
          linarith
        have hsum' : scaled x.magnitude + scaled y.magnitude = 0 := by exact_mod_cast hsum
        have hzero : y.isZero = true := by
          have := scaled_eq_zero_iff.mp (Nat.eq_zero_of_add_eq_zero hsum').2
          simpa [isZero] using this
        rw [heq, hzero]
        simp
        decide

/-- **The total order of doubles** that are no NaN is the order of their numbers. -/
theorem totalCmp_extended (hx : x.isNaN = false) (hy : y.isNaN = false) :
    x.totalCmp y = x.extended.cmp y.extended := by
  have hmx := magnitude_le_of_not_isNaN hx
  have hmy := magnitude_le_of_not_isNaN hy
  unfold totalCmp
  cases hsx : x.isNeg with
  | false =>
    cases hsy : y.isNeg with
    | false => exact (cmp_extended_of_eq hmx hmy hsx hsy).symm
    | true => exact (cmp_extended_of_neg hsx hsy).symm
  | true =>
    cases hsy : y.isNeg with
    | false =>
      have hswap : x.extended.cmp y.extended = (y.extended.cmp x.extended).swap :=
        Std.OrientedCmp.eq_swap
      rw [hswap, cmp_extended_of_neg hsy hsx]
      rfl
    | true => exact (cmp_extended_of_eq hmx hmy hsx hsy).symm

theorem ext_sign_magnitude (hs : x.isNeg = y.isNeg) (hm : x.magnitude = y.magnitude) : x = y := by
  have hx := x.bits.toNat_lt
  have hy := y.bits.toNat_lt
  simp only [isNeg, decide_eq_decide] at hs
  simp only [magnitude] at hm
  have : x.bits = y.bits := UInt64.toNat_inj.mp (by omega)
  cases x
  cases y
  simpa using this

theorem eq_of_totalCmp (h : totalCmp x y = .eq) : x = y := by
  unfold totalCmp at h
  split at h
  · rename_i hx hy
    exact ext_sign_magnitude (hx.trans hy.symm) (Nat.compare_eq_eq.mp h)
  · cases h
  · cases h
  · rename_i hx hy
    exact ext_sign_magnitude (hx.trans hy.symm) (Nat.compare_eq_eq.mp h).symm

theorem isZero_iff_extended : x.isZero = true ↔ x.extended.infinity = 0 ∧ x.extended.value = 0 := by
  have hmag : x.isZero = true ↔ x.magnitude = 0 := by simp [isZero]
  rw [hmag]
  by_cases hinf : x.magnitude = infMagnitude
  · rw [extended_of_infinite hinf, hinf]
    refine iff_of_false (by decide) ?_
    cases x.isNeg <;> simp
  · rw [extended_of_finite hinf, ← scaled_eq_zero_iff]
    simp only [value, true_and]
    cases x.isNeg <;> simp

theorem normal_eq_iff (hx : x.isNaN = false) (hy : y.isNaN = false) : x.normal = y.normal ↔
      x.extended.infinity = y.extended.infinity ∧ x.extended.value = y.extended.value := by
  constructor
  · intro h
    by_cases hzero : x.isZero = true
    · have hzero' : y.isZero = true := isZero_iff.mpr (h ▸ isZero_iff.mp hzero)
      obtain ⟨h1, h2⟩ := isZero_iff_extended.mp hzero
      obtain ⟨h1', h2'⟩ := isZero_iff_extended.mp hzero'
      grind
    · have hzero' : ¬ y.isZero = true := fun hy => hzero (isZero_iff.mpr (h.trans (isZero_iff.mp hy)))
      rw [normal, normal, if_neg hzero, if_neg hzero'] at h
      grind
  · rintro ⟨hinf, hvalue⟩
    by_cases hzero : x.isZero = true
    · obtain ⟨h1, h2⟩ := isZero_iff_extended.mp hzero
      have hzero' : y.isZero = true := isZero_iff_extended.mpr ⟨hinf ▸ h1, hvalue ▸ h2⟩
      rw [isZero_iff.mp hzero, isZero_iff.mp hzero']
    · -- neither is a zero, so neither has the sign of one
      have hsign : ∀ z : F64, ¬ z.isZero = true → z.extended.zero = 0 := by
        intro z hz
        rcases z.extended_zero with h | ⟨h, hv⟩
        · exact h
        · refine absurd (isZero_iff_extended.mpr ⟨?_, hv⟩) hz
          by_contra hne
          have hzinf : z.magnitude = infMagnitude := by
            by_contra hfinite
            rw [extended_of_finite hfinite] at hne
            exact hne rfl
          rw [extended_of_infinite hzinf] at h
          cases h
      have hzero' : ¬ y.isZero = true := fun h => hzero (by
        obtain ⟨h1, h2⟩ := isZero_iff_extended.mp h
        exact isZero_iff_extended.mpr ⟨hinf.trans h1, hvalue.trans h2⟩)
      have hext : x.extended = y.extended :=
        Extended.ext hinf hvalue ((hsign x hzero).trans (hsign y hzero').symm)
      have hcmp : x.totalCmp y = .eq := by
        rw [totalCmp_extended hx hy]
        exact Extended.cmp_eq_iff.mpr hext
      rw [eq_of_totalCmp hcmp]

end F64
