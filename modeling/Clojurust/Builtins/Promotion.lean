import Clojurust.Builtins.Arithmetic

/-!
# Promoting arithmetic

`+'`, `-'` and `*'` on 64-bit integers.

* `Canonical` — an integer as a `Long` if it fits, and as a `BigInt` otherwise;
* `Promoting` — a quoted operator returns the exact result in that form, and the same number as the
  plain operator;
* `promoting_arithmetic_iff` — it does so up to `0x7f00000000000000`, and for `-'` with one operand
  only of zero.
-/

namespace Clojurust.Builtins

open List Int64

/-! ## The law -/

/-- The value stands for the integer, as a `Long` exactly when it fits. -/
def Canonical (v : Value) (n : Int) : Prop :=
  (-2 ^ 63 ≤ n ∧ n < 2 ^ 63 ∧ ∃ l : Int64, v = .long l ∧ l.toInt = n) ∨
    (¬ (-2 ^ 63 ≤ n ∧ n < 2 ^ 63) ∧ v = .bigInt n)

/-- The first operand without all others; one operand is negated. -/
def difference : List Int → Int
  | [] => 0
  | [n] => -n
  | n :: rest => n - rest.sum

/-- The quoted operator returns the integer, and the number that the plain one returns. -/
structure Promoting (quoted plain : List Value → Outcome Value) (args : List Value) (n : Int) :
    Prop where
  exact : ∃ v, quoted args = .ok v ∧ Canonical v n
  agrees : ∀ w, plain args = .ok w → ∃ v q, quoted args = .ok v ∧ numberOf v = some q ∧
    numberOf w = some q

/-- The integers that fit in 64 bits and are not returned as such. -/
def Withheld (n : Int) : Prop := 0x7f00000000000000 < n ∧ n < 2 ^ 63

instance (n : Int) : Decidable (Withheld n) := inferInstanceAs (Decidable (_ ∧ _))

/-! ## The choice of the representation -/

theorem Canonical.numberOf {v : Value} {n : Int} (h : Canonical v n) : numberOf v = some (n : ℚ) := by
  rcases h with ⟨-, -, l, rfl, rfl⟩ | ⟨-, rfl⟩
  · rfl
  · rfl

theorem promote_cases (n : Int) : (Withheld n ∧ promote n = .ok (.bigInt n)) ∨
      (¬ Withheld n ∧ ∃ v, promote n = .ok v ∧ Canonical v n) := by
  unfold promote
  by_cases hfits : -2 ^ 63 ≤ n ∧ n < 2 ^ 63
  · have hlong : toI64? n = some (ofInt n) := if_pos hfits
    by_cases hlarge : 0x7f00000000000000 < n
    · exact .inl ⟨⟨hlarge, hfits.2⟩, if_pos (.inl hlarge)⟩
    · refine .inr ⟨fun h => hlarge h.1, .long (ofInt n), ?_, .inl ⟨hfits.1, hfits.2, _, rfl, ?_⟩⟩
      · rw [if_neg (by omega), hlong]
      · exact toI64?_eq_some.mp hlong
  · refine .inr ⟨?_, .bigInt n, if_pos (by omega), .inr ⟨hfits, rfl⟩⟩
    rintro ⟨hlow, hhigh⟩
    omega

theorem promote_number (n : Int) : ∃ v, promote n = .ok v ∧ numberOf v = some (n : ℚ) := by
  rcases promote_cases n with ⟨-, h⟩ | ⟨-, v, h, hv⟩
  · exact ⟨_, h, rfl⟩
  · exact ⟨v, h, hv.numberOf⟩

theorem promote_canonical_iff (n : Int) :
    (∃ v, promote n = .ok v ∧ Canonical v n) ↔ ¬ Withheld n := by
  constructor
  · rintro ⟨v, hv, hcanonical⟩ hwithheld
    rcases promote_cases n with ⟨-, h⟩ | ⟨h, -⟩
    · -- a big integer that fits is not canonical
      rw [h] at hv
      obtain rfl := Except.ok.inj hv
      rcases hcanonical with ⟨-, -, l, heq, -⟩ | ⟨hfits, -⟩
      · cases heq
      · obtain ⟨hlow, hhigh⟩ := hwithheld
        exact hfits ⟨by omega, hhigh⟩
    · exact h hwithheld
  · intro h
    rcases promote_cases n with ⟨hwithheld, -⟩ | ⟨-, hok⟩
    all_goals grind

/-! ## The operators -/

section Operators

variable (num : Tower)

theorem widestCategory_longs (ns : List Int64) : widestCategory (ns.map .long) = .ok .long := by
  induction ns with
  | nil => rfl
  | cons n ns ih => exact ih

theorem exact_longs (ns : List Int64) : ∀ v ∈ ns.map Value.long, Exact v := by
  intro v hv
  obtain ⟨n, -, rfl⟩ := mem_map.mp hv
  exact .long n

theorem accumulate_longs (combine : Int → Int → Int) (init : Int) (ns : List Int64) :
    accumulate numericAsBigInt combine init (ns.map .long) =
      .ok ((ns.map toInt).foldl combine init) := by
  have hconvert : ∀ v ∈ ns.map Value.long, numericAsBigInt v = .ok (integer v) := by
    intro v hv
    obtain ⟨n, -, rfl⟩ := mem_map.mp hv
    rfl
  rw [accumulate_ok hconvert, foldl_map, foldl_map]
  rfl

theorem foldl_sub_eq (rest : List Int) (n : Int) : rest.foldl (· - ·) n = n - rest.sum := by
  induction rest generalizing n with
  | nil => simp
  | cons => grind

theorem addQuote_longs (ns : List Int64) :
    builtinAddQuote num (ns.map .long) = promote (ns.map toInt).sum := by
  rw [builtinAddQuote, widestCategory_longs]
  rw [accumulate_longs, sum_eq_foldl]
  rfl

theorem mulQuote_longs (ns : List Int64) :
    builtinMulQuote num (ns.map .long) = promote (ns.map toInt).prod := by
  rw [builtinMulQuote, widestCategory_longs]
  rw [accumulate_longs, prod_eq_foldl]
  rfl

theorem subQuote_longs (n : Int64) (rest : List Int64) :
    builtinSubQuote num ((n :: rest).map .long) =
      promote (n.toInt - (rest.map toInt).sum) := by
  rw [builtinSubQuote, widestCategory_longs]
  show (accumulate numericAsBigInt (· - ·) n.toInt (rest.map .long)).bind promote = _
  rw [accumulate_longs, foldl_sub_eq]
  rfl

theorem promoting_iff {quoted plain : List Value → Outcome Value} {args : List Value} {n : Int}
    (hquoted : quoted args = promote n) (hplain : Yields (plain args) n) :
    Promoting quoted plain args n ↔ ¬ Withheld n := by
  rw [← promote_canonical_iff, ← hquoted]
  refine ⟨fun h => h.exact, fun h => ⟨h, ?_⟩⟩
  intro w hw
  obtain ⟨w', hw', hnumber⟩ := hplain
  obtain ⟨v, hv, hv'⟩ := promote_number n
  grind

theorem foldl_longs {op : Operator} (hop : op.Lifts) (ns : List Int64) (init : Int) :
    (ns.map Value.long).foldl (fun acc v => op.ratio acc (number v)) (init : ℚ) =
      (((ns.map toInt).foldl op.integer init : Int) : ℚ) := by
  have hinteger : ∀ v ∈ ns.map Value.long, (integer v : ℚ) = number v := by
    intro v hv
    obtain ⟨n, -, rfl⟩ := mem_map.mp hv
    rfl
  rw [← foldl_integer hop _ init hinteger, foldl_map, foldl_map]
  rfl

theorem add_longs (ns : List Int64) :
    Yields (builtinAdd num (ns.map .long)) ((ns.map toInt).sum : Int) := by
  have h := builtinAdd_exact num (exact_longs ns)
  have hfold := foldl_longs (plus_lifts num) ns 0
  rw [sum_eq_foldl]
  exact hfold ▸ h

theorem mul_longs (ns : List Int64) :
    Yields (builtinMul num (ns.map .long)) ((ns.map toInt).prod : Int) := by
  have h := builtinMul_exact num (exact_longs ns)
  have hfold := foldl_longs (times_lifts num) ns 1
  rw [prod_eq_foldl]
  exact hfold ▸ h

theorem sub_longs (m n : Int64) (rest : List Int64) :
    Yields (builtinSub num ((m :: n :: rest).map .long))
      ((m.toInt - ((n :: rest).map toInt).sum : Int) : ℚ) := by
  have h := builtinSub_exact num (exact_longs (m :: n :: rest))
  have hfold := foldl_longs (minus_lifts num) (n :: rest) m.toInt
  rw [← foldl_sub_eq]
  exact hfold ▸ h

/-- **Promoting arithmetic.** The quoted operators are exact, and `+'` and `*'` and `-'` with two
operands or more return a `Long` for the integers up to `0x7f00000000000000`; `-'` with one operand
returns that operand. -/
theorem promoting_arithmetic_iff (num : Tower) (ns : List Int64) (hne : ns ≠ []) :
    (Promoting (builtinAddQuote num) (builtinAdd num) (ns.map .long) (ns.map Int64.toInt).sum ↔
      ¬ Withheld (ns.map Int64.toInt).sum) ∧
    (Promoting (builtinSubQuote num) (builtinSub num) (ns.map .long)
        (difference (ns.map Int64.toInt)) ↔
      (ns.length = 1 → ns = [0]) ∧ ¬ Withheld (difference (ns.map Int64.toInt))) ∧
    (Promoting (builtinMulQuote num) (builtinMul num) (ns.map .long) (ns.map Int64.toInt).prod ↔
      ¬ Withheld (ns.map Int64.toInt).prod) := by
  refine ⟨promoting_iff (addQuote_longs num ns) (add_longs num ns), ?_,
    promoting_iff (mulQuote_longs num ns) (mul_longs num ns)⟩
  match ns, hne with
  | [n], _ =>
    have hquote : builtinSubQuote num ([n].map .long) = promote n.toInt := by
      rw [subQuote_longs]
      simp
    have hplain : Yields (builtinSub num ([n].map .long)) ((-n.toInt : Int) : ℚ) := by
      rw [Int.cast_neg]
      exact negate_exact (.long n)
    constructor
    · intro h
      obtain ⟨v, hv, hcanonical⟩ := h.exact
      obtain ⟨w, hw, hnumber⟩ := promote_number n.toInt
      obtain rfl : v = w := Except.ok.inj (hv.symm.trans (hquote.trans hw))
      have hneg : n.toInt = -n.toInt := by
        have := hcanonical.numberOf.symm.trans hnumber
        exact_mod_cast (Option.some.inj this).symm
      have hzero : n = 0 := toInt_inj.mp (by
        grind)
      subst hzero
      exact ⟨fun _ => rfl, fun hwithheld => absurd hwithheld (by decide)⟩
    · rintro ⟨hone, -⟩
      obtain rfl : n = 0 := singleton_inj.mp (hone rfl)
      exact (promoting_iff hquote hplain).mpr (by decide)
  | m :: n :: rest, _ =>
    have hdifference : difference ((m :: n :: rest).map toInt) =
        m.toInt - ((n :: rest).map toInt).sum := rfl
    rw [hdifference, promoting_iff (subQuote_longs num m (n :: rest)) (sub_longs num m n rest)]
    simp

/-- An arithmetic for runs on integers. -/
def integerTower : Tower where
  toArith := integerArith
  f64Sub a _ := a
  f64Mul a _ := a
  f64Div a _ := a
  decimalSub a _ := a
  decimalMul a _ := a
  decimalDiv a _ := a
  applyPrecision d := .ok d
  applyPrecisionOrDefault d := .ok d

/-- `Long/MIN_VALUE` and `-1`: their sum and their product do not fit, their difference does. -/
theorem promoting_arithmetic_least :
    Promoting (builtinAddQuote integerTower) (builtinAdd integerTower)
        [.long Int64.minValue, .long (-1)] (-2 ^ 63 - 1) ∧
      Promoting (builtinSubQuote integerTower) (builtinSub integerTower)
        [.long Int64.minValue, .long (-1)] (-2 ^ 63 + 1) ∧
      Promoting (builtinMulQuote integerTower) (builtinMul integerTower)
        [.long Int64.minValue, .long (-1)] (2 ^ 63) := by
  obtain ⟨hadd, hsub, hmul⟩ := promoting_arithmetic_iff integerTower [minValue, -1] (by simp)
  exact ⟨hadd.mpr (by decide), hsub.mpr ⟨by simp, by decide⟩, hmul.mpr (by decide)⟩

/-- `(-' 5)` is `5`, and `(+' 0x7f00000000000000 1)` is a big integer that fits. -/
theorem promotion_off : builtinSubQuote integerTower [.long 5] = .ok (.long 5) ∧
      builtinSub integerTower [.long 5] = .ok (.long (-5)) ∧
      builtinAddQuote integerTower [.long 0x7f00000000000000, .long 1] =
        .ok (.bigInt 0x7f00000000000001) ∧
      builtinAdd integerTower [.long 0x7f00000000000000, .long 1] =
        .ok (.long 0x7f00000000000001) :=
  ⟨rfl, rfl, rfl, rfl⟩

end Operators

end Clojurust.Builtins
