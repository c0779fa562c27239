import Clojurust.Builtins.Arithmetic
import Clojurust.Value.Equivalence

/-!
# Comparison

`=`, `<`, `>`, `<=` and `>=` (`builtin_eq` to `builtin_gte` of
`crates/cljrs-builtins/src/builtins.rs`) on any number of operands.

* `numCompare` — two numbers at the wider of their kinds;
* `chain` — the loop over the neighbours in a list;
* `numCompare_exact` — integers and ratios are compared as rational numbers;
* `numCompare_error` — no comparison panics.
-/

namespace Clojurust.Builtins

/-- `f64::partial_cmp`. -/
def f64PartialCmp (x y : F64) : Option Ordering :=
  if x.isNaN || y.isNaN then none else some (x.normal.totalCmp y.normal)

section Comparison

variable (num : Tower)

def numCompare (a b : Value) : Outcome Ordering := do
  match (← widestCategory [a, b]) with
  | .double =>
    let x ← numericAsF64 num.toArith a
    let y ← numericAsF64 num.toArith b
    return (f64PartialCmp x y).getD .eq
  | .bigDecimal =>
    let x ← numericAsBigDecimal num.toArith a
    let y ← numericAsBigDecimal num.toArith b
    return compare (x.aligned y).1 (x.aligned y).2
  | _ =>
    let x ← numericAsRatio a
    let y ← numericAsRatio b
    return compare x y

/-- The loops over `args.windows(2)`: the first pair that fails answers `false`. -/
def chain (holds : Value → Value → Outcome Bool) : List Value → Outcome Value
  | x :: y :: rest => do
    if (← holds x y) then chain holds (y :: rest) else return .bool false
  | _ => .ok (.bool true)

def builtinEq : List Value → Outcome Value := chain fun x y => .ok (x.eq num.toNumerics y)

def builtinLt : List Value → Outcome Value := chain fun x y => do
  return (← numCompare num x y) == .lt

def builtinGt : List Value → Outcome Value := chain fun x y => do
  return (← numCompare num x y) == .gt

/-- Only `<=` looks for NaNs. -/
def builtinLte : List Value → Outcome Value := chain fun x y =>
  if doubleIs F64.isNaN x then .ok false
  else if doubleIs F64.isNaN y then .ok false
  else do return (← numCompare num x y) != .gt

def builtinGte : List Value → Outcome Value := chain fun x y => do
  return (← numCompare num x y) != .lt

theorem chain_two (holds : Value → Value → Outcome Bool) (x y : Value) :
    chain holds [x, y] = (do return .bool (← holds x y)) := by
  rw [chain]
  cases holds x y with
  | error e => rfl
  | ok b => cases b <;> rfl

theorem numCompare_exact {x y : Value} (hx : Exact x) (hy : Exact y) :
    numCompare num x y = .ok (compare (number x) (number y)) := by
  have hboth : ∀ v ∈ [x, y], Exact v := by simp [hx, hy]
  obtain ⟨cat, hwidest, hcat, -⟩ := widestCategory_exact hboth
  rw [numCompare, hwidest, hx.numericAsRatio, hy.numericAsRatio]
  cases cat with
  | double | bigDecimal => exact absurd hcat (by decide)
  | _ => rfl

end Comparison

/-! ## Errors -/

section Errors

variable {num : Tower}

def wrongType {α : Type} (expected : String) (v : Value) : Outcome α :=
  .error (.error (.wrongType expected (typeName v)))

/-- A value of one of the five kinds of numbers. -/
inductive IsNumber : Value → Prop
  | long (n : Int64) : IsNumber (.long n)
  | double (f : F64) : IsNumber (.double f)
  | ratio (r : ℚ) : IsNumber (.ratio r)
  | bigInt (n : Int) : IsNumber (.bigInt n)
  | bigDecimal (d : BigDecimal) : IsNumber (.bigDecimal d)

theorem isNumber_or (v : Value) :
    IsNumber v ∧ (∃ cat, numCategory v = .ok cat) ∨ numCategory v = wrongType "number" v := by
  cases v with
  | long n => exact .inl ⟨.long n, _, rfl⟩
  | double f => exact .inl ⟨.double f, _, rfl⟩
  | ratio r => exact .inl ⟨.ratio r, _, rfl⟩
  | bigInt n => exact .inl ⟨.bigInt n, _, rfl⟩
  | bigDecimal d => exact .inl ⟨.bigDecimal d, _, rfl⟩
  | _ => exact .inr rfl

variable {a b : Value}

theorem numCompare_left (ha : numCategory a = wrongType "number" a) (b : Value) :
    numCompare num a b = wrongType "number" a := by
  rw [numCompare, widestCategory, List.foldlM_cons, widen, ha]
  rfl

theorem numCompare_right {cat : NumCat} (ha : numCategory a = .ok cat)
    (hb : numCategory b = wrongType "number" b) :
    numCompare num a b = wrongType "number" b := by
  have hwidest : widestCategory [a, b] = wrongType "number" b := by
    rw [widestCategory, List.foldlM_cons, widen, ha]
    show [b].foldlM widen _ = _
    rw [List.foldlM_cons, widen, hb]
    rfl
  rw [numCompare, hwidest]
  rfl

theorem numCompare_error {e : Raised} (h : numCompare num a b = .error e) :
    ∃ e', e = .error e' := by
  rcases isNumber_or a with ⟨ha, cat, hcat⟩ | ha
  · rcases isNumber_or b with ⟨hb, -⟩ | hb
    · cases ha <;> cases hb <;> cases h
    · rw [numCompare_right hcat hb] at h
      cases h
      exact ⟨_, rfl⟩
  · rw [numCompare_left ha] at h
    cases h
    exact ⟨_, rfl⟩

end Errors

end Clojurust.Builtins
