import Mathlib.Data.Int.ModEq
import Mathlib.Algebra.Order.Field.Basic
import Mathlib.Data.Rat.Cast.Order

/-!
# Two kinds of integer division

* `Truncated a b q r` — quotient and remainder, the remainder with the sign of the dividend;
  `truncated_tdiv_tmod`;
* `Floored a b t` — the residue with the sign of the divisor, which is the only one (`Floored.unique`);
* `floored_residue` — it is the truncated remainder, or that plus the divisor when the signs differ;
* `floored_tmod_add` — and in one formula `((a rem b) + b) rem b`.
-/

namespace IntDivision

open Int

variable {a b q r t t' : Int}

@[grind cases]
structure Truncated (a b q r : Int) : Prop where
  eq : a = q * b + r
  lt : r.natAbs < b.natAbs
  sign : r = 0 ∨ r.sign = a.sign

@[grind cases]
structure Floored (a b t : Int) : Prop where
  congr : t ≡ a [ZMOD b]
  lt : t.natAbs < b.natAbs
  sign : t = 0 ∨ t.sign = b.sign

theorem natAbs_tmod_lt (hb : b ≠ 0) : (a.tmod b).natAbs < b.natAbs := by
  rw [natAbs_tmod]
  exact Nat.mod_lt _ (natAbs_pos.mpr hb)

theorem tmod_nonpos (ha : a ≤ 0) : a.tmod b ≤ 0 := by
  have hneg := tmod_nonneg (a := -a) b (by omega)
  rw [neg_tmod] at hneg
  omega

theorem truncated_tdiv_tmod (hb : b ≠ 0) : Truncated a b (a.tdiv b) (a.tmod b) := by
  refine ⟨?_, natAbs_tmod_lt hb, ?_⟩
  · rw [mul_comm]
    exact (mul_tdiv_add_tmod a b).symm
  · by_cases hdvd : b ∣ a
    · exact .inl (tmod_eq_zero_of_dvd hdvd)
    · right
      rw [sign_tmod, if_neg hdvd]

theorem Floored.side (h : Floored a b t) : 0 < b ∧ 0 ≤ t ∨ b < 0 ∧ t ≤ 0 := by
  grind

theorem Floored.unique (h : Floored a b t) (h' : Floored a b t') : t = t' := by
  have hdvd : b ∣ t - t' := (h'.congr.trans h.congr.symm).dvd
  have hlt := h.lt
  have hlt' := h'.lt
  have hside := h.side
  have hside' := h'.side
  have hzero := eq_zero_of_dvd_of_natAbs_lt_natAbs hdvd (by omega)
  omega

theorem tmod_modEq (a b : Int) : a.tmod b ≡ a [ZMOD b] :=
  modEq_iff_dvd.mpr dvd_self_sub_tmod

/-- The truncated remainder and the divisor point in different directions. -/
def Opposed (r b : Int) : Prop := (0 < r ∧ b < 0) ∨ (r < 0 ∧ 0 < b)

instance : Decidable (Opposed r b) := inferInstanceAs (Decidable (_ ∨ _))

theorem floored_residue (hb : b ≠ 0) :
    Floored a b (if Opposed (a.tmod b) b then a.tmod b + b else a.tmod b) := by
  have hlt := natAbs_tmod_lt (a := a) hb
  have hmod := tmod_modEq a b
  split
  · rename_i hopposed
    refine ⟨add_modEq_right.trans hmod, ?_, .inr ?_⟩
    · rcases hopposed with h | h <;> omega
    · grind
  · rename_i hopposed
    refine ⟨hmod, hlt, ?_⟩
    rcases lt_trichotomy (a.tmod b) 0 with hr | hr | hr
    · have hneg : b < 0 := by
        by_contra hpos
        exact hopposed (.inr ⟨hr, by omega⟩)
      grind
    · exact .inl hr
    · have hpos : 0 < b := by
        by_contra hneg
        exact hopposed (.inl ⟨hr, by omega⟩)
      grind

theorem floored_tmod (hb : b ≠ 0) {s : Int} (hs : s ≡ a [ZMOD b]) (hside : 0 ≤ s ∧ 0 < b ∨ s ≤ 0 ∧ b < 0) :
    Floored a b (s.tmod b) := by
  refine ⟨(tmod_modEq s b).trans hs, natAbs_tmod_lt hb, ?_⟩
  by_cases hdvd : b ∣ s
  · exact .inl (tmod_eq_zero_of_dvd hdvd)
  · have hne : s ≠ 0 := by
      rintro rfl
      exact hdvd (dvd_zero b)
    rw [sign_tmod, if_neg hdvd]
    grind

theorem floored_tmod_add (hb : b ≠ 0) : Floored a b ((a.tmod b + b).tmod b) := by
  have hlt := natAbs_tmod_lt (a := a) hb
  refine floored_tmod hb (add_modEq_right.trans (tmod_modEq a b)) ?_
  omega

/-! ## Quotients of rational numbers -/

theorem cast_tdiv_of_dvd (hb : b ≠ 0) (h : b ∣ a) : ((a.tdiv b : Int) : ℚ) = a / b := by
  obtain ⟨k, rfl⟩ := h
  rw [mul_tdiv_cancel_left k hb, cast_mul, mul_div_cancel_left₀ _ (cast_ne_zero.mpr hb)]

theorem abs_tdiv_lt (hb : b ≠ 0) (h : ¬ b ∣ a) : |((a.tdiv b : Int) : ℚ)| < |(a : ℚ) / b| := by
  have habs : ∀ k : Int, |(k : ℚ)| = (k.natAbs : ℚ) := by
    intro k
    rw [Nat.cast_natAbs, cast_abs]
  have hpos : (0 : ℚ) < b.natAbs := Nat.cast_pos.mpr (natAbs_pos.mpr hb)
  have hlt : a.natAbs / b.natAbs * b.natAbs < a.natAbs := by
    refine Nat.lt_of_le_of_ne (Nat.div_mul_le_self _ _) fun heq => h ?_
    exact natAbs_dvd_natAbs.mp ⟨_, by rw [Nat.mul_comm]; exact heq.symm⟩
  rw [abs_div, habs, habs, habs, lt_div_iff₀ hpos, natAbs_tdiv]
  exact_mod_cast hlt

end IntDivision
