import Clojurust.Lib.IntDivision
import Clojurust.Value.Basic

/-!
# Division

`quot`, `rem` and `mod` (`builtin_quot`, `builtin_rem` and `builtin_mod` of
`crates/cljrs-builtins/src/builtins.rs`) on numbers of every kind. Arithmetic on doubles and decimals
is that of an arbitrary `Arith`.

* `Raised` — a builtin may return an error or panic; `checkOverflow` says whether the build has
  overflow checks;
* `QuotRemLaws`, `ModLaw` — the laws of division for integers;
* `integer_division_iff` — they hold exactly when no step on 64-bit integers overflows.
-/

namespace Clojurust.Builtins

open IntDivision Int64

/-! ## Outcomes -/

/-- The errors of `ValueError` that these builtins return. -/
inductive ValueError where
  | wrongType (expected got : String)
  | arityError (name expected : String) (got : Nat)
  | other (message : String)
  deriving DecidableEq

inductive Raised where
  | error (e : ValueError)
  | panic (message : String)
  deriving DecidableEq

abbrev Outcome := Except Raised

def other {α : Type} (message : String) : Outcome α := .error (.error (.other message))

/-- `Value::type_name`. -/
def typeName : Value → String
  | .withMeta inner _ => typeName inner
  | .reduced _ => "reduced"
  | .nil => "nil"
  | .bool _ => "boolean"
  | .long _ => "long"
  | .double _ => "double"
  | .bigInt _ => "bigint"
  | .bigDecimal _ => "bigdecimal"
  | .ratio _ => "ratio"
  | .char _ => "char"
  | .str _ => "string"
  | .symbol _ => "symbol"
  | .keyword _ => "keyword"
  | .uuid _ => "uuid"
  | .instant _ => "instant"
  | .list _ => "list"
  | .vector _ => "vector"
  | .map _ => "map"
  | .set _ => "set"
  | .queue _ _ => "queue"
  | .lazySeq _ _ => "lazyseq"
  | .cons _ _ => "cons"
  | .typeInstance _ _ => "record"

/-! ## Numbers -/

/-- Arithmetic on doubles and decimals, and the conversions it needs. -/
structure Arith extends Numerics where
  /-- `BigDecimal::to_f64`. -/
  decimalToF64 : BigDecimal → Option F64
  /-- `f as i64`. -/
  f64AsI64 : F64 → Int64
  /-- `str::parse::<BigDecimal>`. -/
  parseDecimal : String → Option BigDecimal
  /-- `numer / denom` as a decimal. -/
  ratioToDecimal : ℚ → BigDecimal
  f64Add : F64 → F64 → F64
  f64Rem : F64 → F64 → F64
  /-- `(a / b).trunc()`. -/
  f64Quot : F64 → F64 → F64
  decimalAdd : BigDecimal → BigDecimal → BigDecimal
  decimalRem : BigDecimal → BigDecimal → BigDecimal
  /-- `(a / b).with_scale(0)`. -/
  decimalQuot : BigDecimal → BigDecimal → BigDecimal

def infinity : F64 := ⟨0x7FF0000000000000⟩

def nan : F64 := ⟨0x7FF8000000000000⟩

def isInfinite (x : F64) : Bool := decide (x.magnitude = F64.infMagnitude)

/-- `0.0 < x`. -/
def f64Pos (x : F64) : Bool := !x.isNaN && !x.isZero && !x.isNeg

/-- `x < 0.0`. -/
def f64Neg (x : F64) : Bool := !x.isNaN && !x.isZero && x.isNeg

/-- `Ratio::to_integer`: truncation. -/
def ratioToInteger (r : ℚ) : Int := r.num.tdiv r.den

/-- `%` on ratios: what truncated division leaves. -/
def ratioRem (a b : ℚ) : ℚ := a - b * ratioToInteger (a / b)

section Conversions

variable (num : Arith)

def numericAsF64 : Value → Outcome F64
  | .long n => .ok (F64.ofInt n.toInt)
  | .double f => .ok f
  | .bigInt n => .ok ((num.bigIntToF64 n).getD infinity)
  | .bigDecimal d => .ok ((num.decimalToF64 d).getD infinity)
  | .ratio r => .ok ((num.ratioToF64 r).getD nan)
  | v => .error (.error (.wrongType "number" (typeName v)))

def numericAsBigDecimal : Value → Outcome BigDecimal
  | .long n => .ok (.ofInt n.toInt)
  | .bigInt n => .ok (.ofInt n)
  | .bigDecimal d => .ok d
  | .double f => .ok ((num.decimalOfF64 f).getD (.ofInt 0))
  | .ratio r => .ok (num.ratioToDecimal r)
  | v => .error (.error (.wrongType "number" (typeName v)))

def numericAsRatio : Value → Outcome ℚ
  | .long n => .ok n.toInt
  | .bigInt n => .ok n
  | .ratio r => .ok r
  | v => .error (.error (.wrongType "number" (typeName v)))

def numericAsBigInt : Value → Outcome Int
  | .long n => .ok n.toInt
  | .bigInt n => .ok n
  | .ratio r => .ok (ratioToInteger r)
  | v => .error (.error (.wrongType "integer" (typeName v)))

/-- `bigdec_to_i64`; the exponent is cut to 32 bits. -/
def bigdecToI64 (d : BigDecimal) : Outcome Int64 :=
  let shifted :=
    if 0 ≤ d.scale then d.intVal.tdiv (10 ^ (d.scale.toNat % 2 ^ 32))
    else d.intVal * 10 ^ ((-d.scale).toNat % 2 ^ 32)
  match toI64? shifted with
  | some n => .ok n
  | none => other "BigDecimal too large for i64"

/-- `numeric_as_i64`, which also takes characters, booleans and the text of a number. -/
def numericAsI64 : Value → Outcome Int64
  | .long n => .ok n
  | .double f =>
    if isInfinite f || f.isNaN then other "cannot convert non-number to i64"
    else .ok (num.f64AsI64 f)
  | .char c => .ok (Int64.ofNat c.toNat)
  | .bigInt n =>
    match toI64? n with
    | some n => .ok n
    | none => other "BigInt too large for i64"
  | .ratio r =>
    match toI64? (if r < 0 then r.ceil else r.floor) with
    | some n => .ok n
    | none => other "cannot convert ratio"
  | .bigDecimal d => bigdecToI64 d
  | .bool b => .ok (if b then 1 else 0)
  | .str s =>
    match num.parseDecimal s with
    | some d => bigdecToI64 d
    | none => other "failed to parse string as number"
  | v => .error (.error (.wrongType "integer" (typeName v)))

end Conversions

/-! ## Operations on 64-bit integers -/

/-- `a / b` on `i64` for a divisor that is not zero: it panics when the quotient does not fit. -/
def i64Div (a b : Int64) : Outcome Int64 :=
  if a = Int64.minValue ∧ b = -1 then .error (.panic "attempt to divide with overflow")
  else .ok (a / b)

/-- `a % b` on `i64` for a divisor that is not zero: it panics when the quotient does not fit. -/
def i64Rem (a b : Int64) : Outcome Int64 :=
  if a = Int64.minValue ∧ b = -1 then
    .error (.panic "attempt to calculate the remainder with overflow")
  else .ok (a % b)

/-- `a + b` on `i64`: with overflow checks it panics when the sum does not fit, without them it wraps
around. -/
def i64Add (checkOverflow : Bool) (a b : Int64) : Outcome Int64 :=
  if checkOverflow && (toI64? (a.toInt + b.toInt)).isNone then
    .error (.panic "attempt to add with overflow")
  else .ok (a + b)

/-- `((a % b) + b) % b` on `i64`. -/
def i64Mod (checkOverflow : Bool) (a b : Int64) : Outcome Int64 := do
  let r ← i64Rem a b
  let s ← i64Add checkOverflow r b
  i64Rem s b

/-! ## The builtins -/

def isDouble : Value → Bool
  | .double _ => true
  | _ => false

def isDecimal : Value → Bool
  | .bigDecimal _ => true
  | _ => false

def isRatio : Value → Bool
  | .ratio _ => true
  | _ => false

def isBigInt : Value → Bool
  | .bigInt _ => true
  | _ => false

/-- A double with a property. -/
def doubleIs (p : F64 → Bool) : Value → Bool
  | .double f => p f
  | _ => false

/-- What `rem` and `mod` do at each kind of number. -/
structure RemainderOps where
  name : String
  f64 : F64 → F64 → F64
  decimal : BigDecimal → BigDecimal → BigDecimal
  ratio : ℚ → ℚ → ℚ
  bigInt : Int → Int → Int
  long : Int64 → Int64 → Outcome Int64

section Builtins

variable (num : Arith)

/-- The common course of `builtin_mod` and `builtin_rem`. -/
def remainder (ops : RemainderOps) (x y : Value) : Outcome Value :=
  if doubleIs F64.isNaN x then other (ops.name ++ " of NaN")
  else if doubleIs F64.isNaN y then other (ops.name ++ " by NaN")
  else if doubleIs isInfinite x then other (ops.name ++ " of infinity")
  else if doubleIs isInfinite y then .ok (.double nan)
  else if isDouble x || isDouble y then do
    let a ← numericAsF64 num x
    let b ← numericAsF64 num y
    if b.isZero then other (ops.name ++ " by zero") else .ok (.double (ops.f64 a b))
  else if isDecimal x || isDecimal y then do
    let a ← numericAsBigDecimal num x
    let b ← numericAsBigDecimal num y
    if b.intVal = 0 then other (ops.name ++ " by zero") else .ok (.bigDecimal (ops.decimal a b))
  else if isRatio x || isRatio y then do
    let a ← numericAsRatio x
    let b ← numericAsRatio y
    if b = 0 then other (ops.name ++ " by zero")
    else if (ops.ratio a b).den = 1 then .ok (.bigInt (ratioToInteger (ops.ratio a b)))
    else .ok (.ratio (ops.ratio a b))
  else if isBigInt x || isBigInt y then do
    let a ← numericAsBigInt x
    let b ← numericAsBigInt y
    if b = 0 then other (ops.name ++ " by zero") else .ok (.bigInt (ops.bigInt a b))
  else do
    let a ← numericAsI64 num x
    let b ← numericAsI64 num y
    if b = 0 then other (ops.name ++ " by zero") else
      let r ← ops.long a b
      .ok (.long r)

/-- `builtin_rem`. -/
def builtinRem : Value → Value → Outcome Value :=
  remainder num ⟨"rem", num.f64Rem, num.decimalRem, ratioRem, Int.tmod, i64Rem⟩

/-- `builtin_mod`: the remainder moves to the side of the divisor. -/
def builtinMod (checkOverflow : Bool) : Value → Value → Outcome Value :=
  remainder num {
    name := "mod"
    f64 := fun a b =>
      let r := num.f64Rem a b
      if (f64Pos r && f64Neg b) || (f64Neg r && f64Pos b) then num.f64Add r b else r
    decimal := fun a b =>
      let r := num.decimalRem a b
      if r.intVal = 0 then r
      else if (0 < r.intVal ∧ b.intVal < 0) ∨ (r.intVal < 0 ∧ 0 < b.intVal) then num.decimalAdd r b
      else r
    ratio := fun a b =>
      let r := ratioRem a b
      if (0 < r ∧ b < 0) ∨ (r < 0 ∧ 0 < b) then r + b else r
    bigInt := fun a b =>
      if Opposed (a.tmod b) b then a.tmod b + b else a.tmod b
    long := i64Mod checkOverflow }

/-- `builtin_quot`. -/
def builtinQuot (x y : Value) : Outcome Value :=
  if doubleIs (fun f => f.isNaN || isInfinite f) x then other "quot of NaN or Infinite"
  else if doubleIs F64.isNaN y then other "quot by NaN"
  else if isDouble x || isDouble y then do
    let a ← numericAsF64 num x
    let b ← numericAsF64 num y
    if b.isZero then other "quot by zero" else .ok (.double (num.f64Quot a b))
  else if isDecimal x || isDecimal y then do
    let a ← numericAsBigDecimal num x
    let b ← numericAsBigDecimal num y
    if b.intVal = 0 then other "quot by zero" else .ok (.bigDecimal (num.decimalQuot a b))
  else if isRatio x || isRatio y then do
    let a ← numericAsRatio x
    let b ← numericAsRatio y
    if b = 0 then other "quot by zero" else .ok (.bigInt (ratioToInteger (a / b)))
  else if isBigInt x || isBigInt y then do
    let a ← numericAsBigInt x
    let b ← numericAsBigInt y
    if b = 0 then other "quot by zero" else .ok (.bigInt (a.tdiv b))
  else do
    let a ← numericAsI64 num x
    let b ← numericAsI64 num y
    if b = 0 then other "quot by zero" else
      let q ← i64Div a b
      .ok (.long q)

end Builtins

/-! ## Integers -/

/-- The number that a value of an integer kind stands for. -/
def integerOf : Value → Option Int
  | .long n => some n.toInt
  | .bigInt n => some n
  | _ => none

/-- `quot` and `rem` return the truncated quotient and remainder. -/
def QuotRemLaws (num : Arith) (x y : Value) (a b : Int) : Prop :=
  ∃ vq vr q r, builtinQuot num x y = .ok vq ∧ builtinRem num x y = .ok vr ∧
    integerOf vq = some q ∧ integerOf vr = some r ∧ Truncated a b q r

/-- `mod` returns the residue with the sign of the divisor. -/
def ModLaw (num : Arith) (checkOverflow : Bool) (x y : Value) (a b : Int) : Prop :=
  ∃ v t, builtinMod num checkOverflow x y = .ok v ∧ integerOf v = some t ∧ Floored a b t

/-- Not the least 64-bit integer by `-1`, whose quotient is not a 64-bit integer. -/
def QuotientFits (x y : Value) : Prop := ¬ (x = .long Int64.minValue ∧ y = .long (-1))

/-- The sum of remainder and divisor is a 64-bit integer, when both numbers are. -/
def SumFits (x y : Value) : Prop :=
  ∀ m n : Int64, x = .long m → y = .long n →
    -2 ^ 63 ≤ m.toInt.tmod n.toInt + n.toInt ∧ m.toInt.tmod n.toInt + n.toInt < 2 ^ 63

section Laws

variable {num : Arith} {checkOverflow : Bool} {x y : Value} {a b : Int} {m n : Int64}

theorem toInt_ne_zero (h : n ≠ 0) : n.toInt ≠ 0 := by
  intro hzero
  exact h (toInt_inj.mp hzero)

/-! ### Steps on 64-bit integers -/

theorem i64Div_ok (hfits : ¬ (m = minValue ∧ n = -1)) :
    ∃ q, i64Div m n = .ok q ∧ q.toInt = m.toInt.tdiv n.toInt := by
  refine ⟨m / n, if_neg hfits, ?_⟩
  by_cases hm : m = minValue
  · exact toInt_div_of_ne_right m n fun hn => hfits ⟨hm, hn⟩
  · exact toInt_div_of_ne_left m n hm

theorem i64Rem_ok (hfits : ¬ (m = minValue ∧ n = -1)) :
    ∃ r, i64Rem m n = .ok r ∧ r.toInt = m.toInt.tmod n.toInt :=
  ⟨m % n, if_neg hfits, toInt_mod m n⟩

theorem i64Mod_ok (checkOverflow : Bool) (hn : n ≠ 0) (hfits : ¬ (m = minValue ∧ n = -1))
    (hlow : -2 ^ 63 ≤ m.toInt.tmod n.toInt + n.toInt) (hhigh : m.toInt.tmod n.toInt + n.toInt < 2 ^ 63) :
    ∃ t, i64Mod checkOverflow m n = .ok t ∧ Floored m.toInt n.toInt t.toInt := by
  obtain ⟨r, hr, hrem⟩ := i64Rem_ok hfits
  have hsum : (r + n).toInt = m.toInt.tmod n.toInt + n.toInt := by
    rw [toInt_add, hrem]
    exact Int.bmod_eq_of_le (by omega) (by omega)
  have hadd : i64Add checkOverflow r n = .ok (r + n) := by
    have hsome : toI64? (r.toInt + n.toInt) = some (ofInt (r.toInt + n.toInt)) := by
      rw [hrem]
      exact if_pos ⟨hlow, hhigh⟩
    simp [i64Add, hsome]
  have hlt := natAbs_tmod_lt (a := m.toInt) (toInt_ne_zero hn)
  have hfits' : ¬ (r + n = minValue ∧ n = -1) := by
    rintro ⟨hmin, rfl⟩
    rw [hmin] at hsum
    have hone : (-1 : Int64).toInt = -1 := by decide
    have hleast : minValue.toInt = -2 ^ 63 := by decide
    rw [hone] at hsum hlt
    omega
  obtain ⟨t, ht, hrem'⟩ := i64Rem_ok hfits'
  refine ⟨t, ?_, ?_⟩
  · rw [i64Mod, hr]
    show (i64Add checkOverflow r n >>= fun s => i64Rem s n) = _
    rw [hadd]
    exact ht
  · rw [hrem', hsum]
    exact floored_tmod_add (toInt_ne_zero hn)

theorem i64Mod_wrong (hn : n ≠ 0) (hfits : ¬ (m = minValue ∧ n = -1))
    (hover : ¬ (-2 ^ 63 ≤ m.toInt.tmod n.toInt + n.toInt ∧ m.toInt.tmod n.toInt + n.toInt < 2 ^ 63))
    {t : Int64} (h : i64Mod checkOverflow m n = .ok t) : ¬ Floored m.toInt n.toInt t.toInt := by
  obtain ⟨r, hr, hrem⟩ := i64Rem_ok hfits
  have hlt := natAbs_tmod_lt (a := m.toInt) (toInt_ne_zero hn)
  have hlow := n.le_toInt
  have hhigh := n.toInt_lt
  rw [i64Mod, hr] at h
  change (i64Add checkOverflow r n >>= fun s => i64Rem s n) = _ at h
  unfold i64Add at h
  split at h
  · cases h
  · change i64Rem (r + n) n = .ok t at h
    unfold i64Rem at h
    split at h
    · cases h
    · cases h
      intro hfloored
      have hside := hfloored.side
      have hwrap : (r + n).toInt = (m.toInt.tmod n.toInt + n.toInt).bmod (2 ^ 64) := by
        rw [toInt_add, hrem]
      have hmod : ((r + n) % n).toInt = (r + n).toInt.tmod n.toInt := toInt_mod _ _
      rw [hmod] at hside hfloored
      rw [Int.bmod_def] at hwrap
      have hzero : (r + n).toInt.tmod n.toInt = 0 := by
        rcases hside with ⟨hpos, hside⟩ | ⟨hneg, hside⟩
        · have hopposite : (r + n).toInt ≤ 0 := by
            split at hwrap <;> omega
          exact le_antisymm (tmod_nonpos hopposite) hside
        · have hopposite : 0 ≤ (r + n).toInt := by
            split at hwrap <;> omega
          exact le_antisymm hside (Int.tmod_nonneg _ hopposite)
      -- the divisor divides, so the sum is the divisor, which is in range
      have hdvd : n.toInt ∣ m.toInt := by
        rw [hzero] at hfloored
        exact Int.modEq_zero_iff_dvd.mp hfloored.congr.symm
      rw [Int.tmod_eq_zero_of_dvd hdvd] at hover
      omega

/-! ### The builtins on integers -/

theorem integers_cases (num : Arith) (hx : integerOf x = some a) (hy : integerOf y = some b) :
    (∃ m n : Int64, x = .long m ∧ y = .long n ∧ m.toInt = a ∧ n.toInt = b) ∨
      (isBigInt x || isBigInt y) = true ∧ ∀ ops, remainder num ops x y =
        if b = 0 then other (ops.name ++ " by zero") else .ok (.bigInt (ops.bigInt a b)) := by
  cases x with
  | long m =>
    cases hx
    cases y with
    | long n => exact .inl ⟨m, n, rfl, rfl, rfl, Option.some.inj hy⟩
    | bigInt => cases hy; exact .inr ⟨rfl, fun _ => rfl⟩
    | _ => cases hy
  | bigInt =>
    cases hx
    cases y with
    | long | bigInt => cases hy; exact .inr ⟨rfl, fun _ => rfl⟩
    | _ => cases hy
  | _ => cases hx

theorem remainder_long (ops : RemainderOps) (hn : n ≠ 0) :
    remainder num ops (.long m) (.long n) = (ops.long m n).map .long := by
  have hrun : remainder num ops (.long m) (.long n) =
      if n = 0 then other (ops.name ++ " by zero") else
        ops.long m n >>= fun r => .ok (.long r) := rfl
  rw [hrun, if_neg hn]
  cases ops.long m n <;> rfl

theorem remainder_zero (ops : RemainderOps) (hx : integerOf x = some a) (hy : integerOf y = some 0) :
    remainder num ops x y = other (ops.name ++ " by zero") := by
  rcases integers_cases num hx hy with ⟨m, n, rfl, rfl, -, hn⟩ | ⟨-, hbig⟩
  · obtain rfl : n = 0 := toInt_inj.mp hn
    rfl
  · rw [hbig, if_pos rfl]

/-- On integers `quot` takes the course of `rem` and `mod`. -/
def quotOps (num : Arith) : RemainderOps :=
  ⟨"quot", num.f64Quot, num.decimalQuot, ratioRem, Int.tdiv, i64Div⟩

theorem quot_eq (hx : integerOf x = some a) (hy : integerOf y = some b) :
    builtinQuot num x y = remainder num (quotOps num) x y := by
  cases x with
  | long | bigInt =>
    cases y with
    | long | bigInt => rfl
    | _ => cases hy
  | _ => cases hx

theorem fits_of_bigInt (hbig : (isBigInt x || isBigInt y) = true) :
    QuotientFits x y ∧ SumFits x y := by
  constructor
  · rintro ⟨rfl, rfl⟩
    cases hbig
  · rintro m n rfl rfl
    cases hbig

theorem quotientFits_long : QuotientFits (.long m) (.long n) ↔ ¬ (m = minValue ∧ n = -1) := by
  simp [QuotientFits]

theorem sumFits_long : SumFits (.long m) (.long n) ↔
    -2 ^ 63 ≤ m.toInt.tmod n.toInt + n.toInt ∧ m.toInt.tmod n.toInt + n.toInt < 2 ^ 63 := by
  constructor
  · intro h
    exact h m n rfl rfl
  · rintro h m' n' hm hn
    grind

theorem quotRemLaws_iff (hx : integerOf x = some a) (hy : integerOf y = some b) (hb : b ≠ 0) :
    QuotRemLaws num x y a b ↔ QuotientFits x y := by
  rw [QuotRemLaws, builtinRem, quot_eq hx hy]
  rcases integers_cases num hx hy with ⟨m, n, rfl, rfl, rfl, rfl⟩ | ⟨hbig, hremainder⟩
  · have hn : n ≠ 0 := by
      rintro rfl
      exact hb rfl
    rw [quotientFits_long, remainder_long _ hn, remainder_long _ hn, quotOps]
    constructor
    · rintro ⟨vq, vr, q, r, hq, -⟩ hmin
      dsimp only at hq
      rw [i64Div, if_pos hmin] at hq
      cases hq
    · intro hfits
      obtain ⟨q, hq, hdiv⟩ := i64Div_ok hfits
      obtain ⟨r, hr, hrem⟩ := i64Rem_ok hfits
      exact ⟨.long q, .long r, _, _, congrArg (Except.map Value.long) hq,
        congrArg (Except.map Value.long) hr, congrArg some hdiv, congrArg some hrem,
        truncated_tdiv_tmod hb⟩
  · refine iff_of_true ?_ (fits_of_bigInt hbig).1
    rw [hremainder, hremainder, if_neg hb, if_neg hb]
    exact ⟨_, _, _, _, rfl, rfl, rfl, rfl, truncated_tdiv_tmod hb⟩

theorem modLaw_iff (hx : integerOf x = some a) (hy : integerOf y = some b) (hb : b ≠ 0) :
    ModLaw num checkOverflow x y a b ↔ QuotientFits x y ∧ SumFits x y := by
  rcases integers_cases num hx hy with ⟨m, n, rfl, rfl, rfl, rfl⟩ | ⟨hbig, hremainder⟩
  · have hn : n ≠ 0 := by
      rintro rfl
      exact hb rfl
    rw [quotientFits_long, sumFits_long, ModLaw, builtinMod, remainder_long _ hn]
    constructor
    · rintro ⟨v, t, hv, ht, hfloored⟩
      change (i64Mod checkOverflow m n).map Value.long = .ok v at hv
      cases hmod : i64Mod checkOverflow m n with
      | error e => rw [hmod] at hv; cases hv
      | ok r =>
        rw [hmod] at hv
        cases hv
        cases ht
        have hfits : ¬ (m = minValue ∧ n = -1) := by
          intro hmin
          rw [i64Mod, i64Rem, if_pos hmin] at hmod
          cases hmod
        refine ⟨hfits, ?_⟩
        by_contra hover
        exact i64Mod_wrong hn hfits hover hmod hfloored
    · rintro ⟨hfits, hlow, hhigh⟩
      obtain ⟨t, ht, hfloored⟩ := i64Mod_ok checkOverflow hn hfits hlow hhigh
      exact ⟨.long t, _, congrArg (Except.map Value.long) ht, rfl, hfloored⟩
  · refine iff_of_true ?_ (fits_of_bigInt hbig)
    rw [ModLaw, builtinMod, hremainder, if_neg hb]
    exact ⟨_, _, rfl, rfl, floored_residue hb⟩

/-- **Division of integers**: a zero divisor is an error; otherwise `quot` and `rem` obey their laws
unless the least 64-bit integer is divided by `-1`, and `mod` obeys its law unless that happens or
the sum of remainder and divisor is no 64-bit integer. -/
theorem integer_division_iff (num : Arith) (checkOverflow : Bool) (x y : Value) (a b : Int)
    (hx : integerOf x = some a) (hy : integerOf y = some b) :
    (b = 0 → ∃ e e' e'', builtinQuot num x y = .error (.error e) ∧
      builtinRem num x y = .error (.error e') ∧
      builtinMod num checkOverflow x y = .error (.error e'')) ∧
    (b ≠ 0 → (QuotRemLaws num x y a b ↔ QuotientFits x y) ∧
      (ModLaw num checkOverflow x y a b ↔ QuotientFits x y ∧ SumFits x y)) := by
  constructor
  · rintro rfl
    exact ⟨_, _, _, (quot_eq hx hy).trans (remainder_zero _ hx hy), remainder_zero _ hx hy,
      remainder_zero _ hx hy⟩
  · intro hb
    exact ⟨quotRemLaws_iff hx hy hb, modLaw_iff hx hy hb⟩

end Laws

/-- An arithmetic for runs on integers, which ask nothing of it. -/
def integerArith : Arith where
  display _ := ""
  bigIntToF64 _ := none
  ratioToF64 _ := none
  decimalOfF64 _ := none
  decimalToF64 _ := none
  f64AsI64 _ := 0
  parseDecimal _ := none
  ratioToDecimal _ := .ofInt 0
  f64Add a _ := a
  f64Rem a _ := a
  f64Quot a _ := a
  decimalAdd a _ := a
  decimalRem a _ := a
  decimalQuot a _ := a

/-- `-7` by `2N`. -/
theorem integer_division_iff_seven : QuotRemLaws integerArith (.long (-7)) (.bigInt 2) (-7) 2 ∧
      ModLaw integerArith true (.long (-7)) (.bigInt 2) (-7) 2 := by
  obtain ⟨-, hlaws⟩ := integer_division_iff integerArith true (.long (-7)) (.bigInt 2) (-7) 2 rfl rfl
  have hfits : QuotientFits (.long (-7)) (.bigInt 2) := by
    rintro ⟨-, h⟩
    cases h
  have hsum : SumFits (.long (-7)) (.bigInt 2) := by
    intro m n _ h
    cases h
  grind

/-- The least 64-bit integer by `-1` panics, and so does the sum in `(mod 5 Long/MAX_VALUE)`; without
overflow checks that `mod` is negative. -/
theorem division_overflows : builtinQuot integerArith (.long Int64.minValue) (.long (-1)) =
        .error (.panic "attempt to divide with overflow") ∧
      builtinRem integerArith (.long Int64.minValue) (.long (-1)) =
        .error (.panic "attempt to calculate the remainder with overflow") ∧
      builtinMod integerArith true (.long 5) (.long Int64.maxValue) =
        .error (.panic "attempt to add with overflow") ∧
      builtinMod integerArith false (.long 5) (.long Int64.maxValue) =
        .ok (.long (-9223372036854775804)) :=
  ⟨rfl, rfl, rfl, rfl⟩

end Clojurust.Builtins
