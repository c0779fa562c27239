import Clojurust.Lib.Float64
import Mathlib.Data.Rat.Cast.Order

/-!
# Numbers and names of the runtime

The types behind the scalar values of `crates/cljrs-value/src/value.rs`, and their hashes
(`crates/cljrs-value/src/hash.rs`).

* `BigDecimal` — an integer with a scale, compared by its value; `beq_iff_value`;
* `Numerics` — the conversions and the printing of the number crates;
* `murmur3Mix`, `hashI64`, `hashU128`, `hashString` — the hashes of scalars.
-/

namespace Clojurust

/-! ## Decimals -/

/-- A decimal of the `bigdecimal` crate: `intVal * 10 ^ (- scale)`. -/
structure BigDecimal where
  intVal : Int
  scale : Int
  deriving DecidableEq

namespace BigDecimal

/-- Both numbers over the larger of the two scales. -/
def aligned (a b : BigDecimal) : Int × Int :=
  if a.scale ≤ b.scale then (a.intVal * 10 ^ (b.scale - a.scale).toNat, b.intVal)
  else (a.intVal, b.intVal * 10 ^ (a.scale - b.scale).toNat)

/-- `==` on decimals: by value, whatever the scales. -/
def beq (a b : BigDecimal) : Bool := (aligned a b).1 == (aligned a b).2

def partialCmp (a b : BigDecimal) : Option Ordering :=
  some (compare (aligned a b).1 (aligned a b).2)

def ofInt (n : Int) : BigDecimal := ⟨n, 0⟩

/-- The number that a decimal stands for. -/
def value (a : BigDecimal) : ℚ := a.intVal * (10 : ℚ) ^ (-a.scale)

theorem aligned_value (a b : BigDecimal) :
    ∃ unit : ℚ, 0 < unit ∧ ((aligned a b).1 : ℚ) * unit = a.value ∧
      ((aligned a b).2 : ℚ) * unit = b.value := by
  have hten : (10 : ℚ) ≠ 0 := by norm_num
  have hpow : ∀ {s t : Int}, s ≤ t → (10 : ℚ) ^ (t - s).toNat * (10 : ℚ) ^ (-t) = (10 : ℚ) ^ (-s) := by
    intro s t h
    rw [← zpow_natCast, Int.toNat_of_nonneg (by omega), ← zpow_add₀ hten]
    congr 1
    omega
  unfold aligned value
  split
  · rename_i h
    refine ⟨(10 : ℚ) ^ (-b.scale), zpow_pos (by norm_num) _, ?_, rfl⟩
    grind
  · refine ⟨(10 : ℚ) ^ (-a.scale), zpow_pos (by norm_num) _, rfl, ?_⟩
    push_cast
    rw [mul_assoc, hpow (by omega)]

theorem compare_aligned (a b : BigDecimal) :
    compare (aligned a b).1 (aligned a b).2 = compare a.value b.value := by
  obtain ⟨unit, hunit, ha, hb⟩ := aligned_value a b
  have hmono : StrictMono (fun n : Int => (n : ℚ) * unit) :=
    (strictMono_mul_right_of_pos hunit).comp Int.cast_strictMono
  rw [← ha, ← hb, ← cmp_eq_compare, ← cmp_eq_compare]
  exact (hmono.cmp_map_eq _ _).symm

theorem beq_iff_value {a b : BigDecimal} : a.beq b = true ↔ a.value = b.value := by
  obtain ⟨unit, hunit, ha, hb⟩ := aligned_value a b
  rw [← ha, ← hb, mul_left_inj' hunit.ne', Int.cast_inj]
  exact beq_iff_eq

example : beq ⟨10, 1⟩ ⟨100, 2⟩ = true := by decide

end BigDecimal

/-- What the number crates do besides exact arithmetic. -/
structure Numerics where
  /-- `BigDecimal::to_string`. -/
  display : BigDecimal → String
  /-- `BigInt::to_f64`. -/
  bigIntToF64 : Int → Option F64
  /-- `Ratio::to_f64`. -/
  ratioToF64 : ℚ → Option F64
  /-- `BigDecimal::try_from`, an error for NaNs and infinities. -/
  decimalOfF64 : F64 → Option BigDecimal

/-- `Ratio::to_string`. -/
def displayRatio (r : ℚ) : String :=
  if r.den = 1 then toString r.num else toString r.num ++ "/" ++ toString r.den

/-- The 64-bit integer with the value, if there is one. -/
def toI64? (n : Int) : Option Int64 :=
  if -2 ^ 63 ≤ n ∧ n < 2 ^ 63 then some (Int64.ofInt n) else none

theorem toI64?_toInt (n : Int64) : toI64? n.toInt = some n := by
  have hlow := n.le_toInt
  have hhigh := n.toInt_lt
  unfold toI64?
  rw [if_pos ⟨hlow, hhigh⟩, Int64.ofInt_toInt]

/-! ## Names -/

/-- A symbol, possibly with a namespace and a commit. -/
structure Symbol where
  ns : Option String
  name : String
  version : Option String
  deriving DecidableEq

def Symbol.versionedName (s : Symbol) : String :=
  match s.ns, s.version with
  | some ns, some version => ns ++ "/" ++ s.name ++ "@" ++ version
  | some ns, none => ns ++ "/" ++ s.name
  | none, some version => s.name ++ "@" ++ version
  | none, none => s.name

structure Keyword where
  ns : Option String
  name : String
  deriving DecidableEq

def Keyword.display (k : Keyword) : String :=
  match k.ns with
  | some ns => ":" ++ ns ++ "/" ++ k.name
  | none => ":" ++ k.name

/-! ## Hashes -/

/-- The finalizer of Murmur3. -/
def murmur3Mix (h : UInt32) : UInt32 :=
  let h := h ^^^ (h >>> 16)
  let h := h * 0x85ebca6b
  let h := h ^^^ (h >>> 13)
  let h := h * 0xc2b2ae35
  h ^^^ (h >>> 16)

def hashI64 (n : Int64) : UInt32 :=
  let lo := n.toUInt64.toUInt32
  let hi := (n >>> 32).toUInt64.toUInt32
  murmur3Mix (lo ^^^ hi)

def hashU128 (n : BitVec 128) : UInt32 :=
  let a := UInt32.ofNat n.toNat
  let b := UInt32.ofNat (n >>> 32).toNat
  let c := UInt32.ofNat (n >>> 64).toNat
  let d := UInt32.ofNat (n >>> 96).toNat
  murmur3Mix (a ^^^ b ^^^ c ^^^ d)

/-- The UTF-16 code units of a character. -/
def encodeUtf16 (c : Char) : List UInt32 :=
  if c.toNat < 0x10000 then [c.val]
  else
    let s : UInt32 := c.val - 0x10000
    [(0xd800 : UInt32) + s / 0x400, (0xdc00 : UInt32) + s % 0x400]

/-- `String.hashCode` of the JVM, mixed. -/
def hashString (s : String) : UInt32 :=
  murmur3Mix ((s.toList.flatMap encodeUtf16).foldl (fun h unit => h * 31 + unit) 0)

def hashCombineUnordered (a b : UInt32) : UInt32 := a ^^^ b

def hashCombineOrdered (acc h : UInt32) : UInt32 := murmur3Mix (acc * 31 + h)

/-- The hash of a double: a whole number that fits hashes like the integer. -/
def hashDouble (x : F64) : UInt32 :=
  match x.whole?.bind toI64? with
  | some n => hashI64 n
  | none => hashI64 x.bits.toInt64

/-- The hash of an integer: of the 64-bit integer, or of the decimal text. -/
def hashBigInt (n : Int) : UInt32 :=
  match toI64? n with
  | some n => hashI64 n
  | none => hashString (toString n)

theorem hashBigInt_toInt (n : Int64) : hashBigInt n.toInt = hashI64 n := by
  unfold hashBigInt
  rw [toI64?_toInt]

theorem compare_intCast (a b : Int) : compare (a : ℚ) b = compare a b := by
  rw [← cmp_eq_compare, ← cmp_eq_compare]
  exact Int.cast_strictMono.cmp_map_eq a b

theorem hashDouble_normal (x : F64) : hashDouble x.normal = hashDouble x := by
  unfold F64.normal
  split
  · rename_i h
    have hzero : F64.isZero ⟨0⟩ = true := by decide
    unfold hashDouble
    rw [F64.whole?_of_isZero h, F64.whole?_of_isZero hzero]
    rfl
  · rfl

end Clojurust
