import Mathlib.Data.Nat.Bitwise

/-!
# Binary64 values as bit patterns

A double is its 64 bits, read as a sign and a magnitude; arithmetic is not defined.

* `F64.beq` — IEEE equality: no NaN equals anything, the two zeros are equal; `F64.normal` — its
  normal form;
* `F64.totalCmp` — the IEEE total order: negative NaNs, negative numbers, `-0`, `+0`, positive
  numbers, positive NaNs;
* `F64.ofInt` — the nearest double, `F64.whole?` — the integer that a double is;
* the sign bit of a 64-bit word as arithmetic (`and_signBit`, `or_signBit`, `xor_signBit`).
-/

/-! ## The sign bit of a word -/

namespace Word64

/-- The most significant bit of a 64-bit word. -/
def signBit : UInt64 := (1 : UInt64) <<< (63 : UInt64)

theorem signBit_toNat : signBit.toNat = 2 ^ 63 := by decide

theorem testBit_63 (a : UInt64) : a.toNat.testBit 63 = decide (2 ^ 63 ≤ a.toNat) := by
  have := a.toNat_lt
  grind

theorem and_signBit (a : UInt64) : a &&& signBit = 0 ↔ a.toNat < 2 ^ 63 := by
  rw [← UInt64.toNat_inj, UInt64.toNat_and, signBit_toNat, Nat.and_two_pow, testBit_63]
  simp

theorem or_signBit {a : UInt64} (h : a.toNat < 2 ^ 63) :
    (a ||| signBit).toNat = a.toNat + 2 ^ 63 := by
  have hor := Nat.two_pow_add_eq_or_of_lt h 1
  rw [Nat.mul_one] at hor
  rw [UInt64.toNat_or, signBit_toNat, Nat.or_comm, ← hor, Nat.add_comm]

theorem xor_signBit (a : UInt64) :
    (a ^^^ signBit).toNat = if a.toNat < 2 ^ 63 then a.toNat + 2 ^ 63 else a.toNat - 2 ^ 63 := by
  have ha := a.toNat_lt
  have hlow : (a.toNat ^^^ 2 ^ 63) % 2 ^ 63 = a.toNat % 2 ^ 63 := by
    rw [Nat.xor_mod_two_pow]; simp
  have hbit : (a.toNat ^^^ 2 ^ 63).testBit 63 = !decide (2 ^ 63 ≤ a.toNat) := by
    rw [Nat.testBit_xor, testBit_63, Nat.testBit_two_pow_self]; simp
  have hlt : (a ^^^ signBit).toNat < 2 ^ 64 := (a ^^^ signBit).toNat_lt
  rw [UInt64.toNat_xor, signBit_toNat] at hlt ⊢
  grind

end Word64

/-! ## Doubles -/

/-- An IEEE binary64 value, given by its bits. -/
structure F64 where
  bits : UInt64
  deriving DecidableEq, Repr

namespace F64

/-- The sign: `true` for the negative half. -/
def isNeg (x : F64) : Bool := decide (2 ^ 63 ≤ x.bits.toNat)

/-- Exponent and fraction as one number: the distance from zero. -/
def magnitude (x : F64) : Nat := x.bits.toNat % 2 ^ 63

/-- The magnitude of the infinities; everything above is a NaN. -/
def infMagnitude : Nat := 0x7FF0000000000000

def isNaN (x : F64) : Bool := decide (infMagnitude < x.magnitude)

def isZero (x : F64) : Bool := decide (x.magnitude = 0)

/-- IEEE `==`. -/
def beq (x y : F64) : Bool :=
  !x.isNaN && !y.isNaN && (decide (x.bits = y.bits) || (x.isZero && y.isZero))

/-- IEEE `totalOrder` as a three-way comparison. -/
def totalCmp (x y : F64) : Ordering :=
  match x.isNeg, y.isNeg with
  | false, false => compare x.magnitude y.magnitude
  | false, true => .gt
  | true, false => .lt
  | true, true => compare y.magnitude x.magnitude

/-- The double with both zeros made one. -/
def normal (x : F64) : F64 := if x.isZero then ⟨0⟩ else x

variable {x : F64}

theorem isZero_iff : x.isZero = true ↔ x.normal = ⟨0⟩ := by
  unfold normal
  split
  · rename_i h
    simp [h]
  · rename_i h
    refine iff_of_false h ?_
    rintro rfl
    exact h (by decide)

theorem beq_iff_normal {y : F64} (hx : x.isNaN = false) (hy : y.isNaN = false) :
    x.beq y = true ↔ x.normal = y.normal := by
  simp only [beq, hx, hy, Bool.not_false, Bool.true_and, Bool.or_eq_true, decide_eq_true_eq,
    Bool.and_eq_true]
  constructor
  · rintro (h | ⟨h, h'⟩)
    · cases x
      simp only at h
      rw [h]
    · rw [isZero_iff.mp h, isZero_iff.mp h']
  · intro h
    by_cases hzero : x.isZero = true
    · exact .inr ⟨hzero, isZero_iff.mpr (h ▸ isZero_iff.mp hzero)⟩
    · have hzero' : y.isZero ≠ true := fun hy => hzero (isZero_iff.mpr (h ▸ isZero_iff.mp hy))
      unfold normal at h
      grind

/-- The integer that a finite double is, if it is one. -/
def whole? (x : F64) : Option Int :=
  let exponent := x.magnitude / 2 ^ 52
  let fraction := x.magnitude % 2 ^ 52
  let significand := if exponent = 0 then fraction else fraction + 2 ^ 52
  let sign : Int := if x.isNeg then -1 else 1
  if infMagnitude ≤ x.magnitude then none
  else if 1075 ≤ exponent then some (sign * (significand * 2 ^ (exponent - 1075) : Nat))
  else if significand % 2 ^ (1075 - max exponent 1) = 0 then
    some (sign * (significand / 2 ^ (1075 - max exponent 1) : Nat))
  else none

theorem whole?_of_isZero (h : x.isZero = true) : x.whole? = some 0 := by
  have hmag : x.magnitude = 0 := by simpa [isZero] using h
  have hfinite : ¬ infMagnitude ≤ 0 := by decide
  simp only [whole?, hmag, Nat.zero_div, Nat.zero_mod, if_true, if_neg hfinite]
  simp

/-- The double nearest to an integer, ties to even. -/
def ofInt (n : Int) : F64 :=
  let m := n.natAbs
  let sign := if n < 0 then 2 ^ 63 else 0
  if m = 0 then ⟨0⟩
  else
    let e := m.log2
    -- the significand with its leading bit; a carry of the rounding goes into the exponent
    let significand :=
      if e ≤ 52 then m * 2 ^ (52 - e)
      else
        let unit := 2 ^ (e - 52)
        let rest := m % unit
        let q := m / unit
        if unit / 2 < rest ∨ (rest = unit / 2 ∧ q % 2 = 1) then q + 1 else q
    let magnitude := (e + 1022) * 2 ^ 52 + significand
    ⟨UInt64.ofNat (sign + min magnitude infMagnitude)⟩

example : ofInt (2 ^ 53 + 1) = ofInt (2 ^ 53) ∧ (ofInt (-3)).whole? = some (-3) := by decide

end F64
