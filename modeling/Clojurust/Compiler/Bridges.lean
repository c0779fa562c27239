import Clojurust.Builtins.Promotion
import Clojurust.Ir.Arith
import Clojurust.Lib.Traversal

/-!
# Arithmetic in compiled code

The bridges `rt_add`, `rt_sub`, `rt_mul`, `rt_div`, `rt_rem`, `rt_eq`, `rt_lt`, `rt_gt`, `rt_lte` and
`rt_gte` of `crates/cljrs-compiler/src/rt_abi.rs`, which compiled code calls with two boxed values.
An exception that is left pending is an error here. A panic in a bridge aborts the process, since they
are `extern "C"` functions, while one in the IR interpreter unwinds. Left out are the instructions that
compiled code uses for unboxed operands in the place of a bridge.

* `bridge` — the bridge of each known function;
* `Same` — two answers with the same value, or two errors;
* `Ordered` — how two numbers compare, by their values; `Refused` — the comparisons that do not hold;
* `tier_arithmetic_iff` — a bridge answers like the IR interpreter exactly when the operands are
  `Promoted`.
-/

namespace Clojurust.Compiler

open Ir
open Builtins
open Traversal (bind_eq_ok)

/-! ## The bridges -/

section Bridges

variable (num : Tower)

/-- `rt_add`, `rt_sub` and `rt_mul`: `nil` for numbers of other kinds. -/
def rtChecked (combine : Int → Int → Int) (f64 : F64 → F64 → F64) : Value → Value → Answer
  | .long x, .long y => checked (combine x.toInt y.toInt)
  | .double x, .double y => .ok (.double (f64 x y))
  | .long x, .double y => .ok (.double (f64 (F64.ofInt x.toInt) y))
  | .double x, .long y => .ok (.double (f64 x (F64.ofInt y.toInt)))
  | _, _ => .ok .nil

def rtAdd : Value → Value → Answer := rtChecked (· + ·) num.f64Add

def rtSub : Value → Value → Answer := rtChecked (· - ·) num.f64Sub

def rtMul : Value → Value → Answer := rtChecked (· * ·) num.f64Mul

/-- `rt_div`: `nil` for the divisor zero, too. -/
def rtDiv : Value → Value → Answer
  | .long x, .long y => if y ≠ 0 then do return .long (← i64Div x y) else .ok .nil
  | .double x, .double y => .ok (.double (num.f64Div x y))
  | .long x, .double y => .ok (.double (num.f64Div (F64.ofInt x.toInt) y))
  | .double x, .long y => .ok (.double (num.f64Div x (F64.ofInt y.toInt)))
  | _, _ => .ok .nil

/-- `rt_rem`: `nil` for a double beside an integer, too. -/
def rtRem : Value → Value → Answer
  | .long x, .long y => if y ≠ 0 then do return .long (← i64Rem x y) else .ok .nil
  | .double x, .double y => .ok (.double (num.f64Rem x y))
  | _, _ => .ok .nil

def rtEq (a b : Value) : Answer := .ok (.bool (a.eq num.toNumerics b))

/-- The comparisons: `false` for numbers of other kinds. -/
def rtCompare (op : KnownFn) : Value → Value → Answer
  | .long x, .long y => .ok (.bool (compares op (some (compare x.toInt y.toInt))))
  | .double x, .double y => .ok (.bool (compares op (f64PartialCmp x y)))
  | .long x, .double y => .ok (.bool (compares op (f64PartialCmp (F64.ofInt x.toInt) y)))
  | .double x, .long y => .ok (.bool (compares op (f64PartialCmp x (F64.ofInt y.toInt))))
  | _, _ => .ok (.bool false)

def rtLt : Value → Value → Answer := rtCompare .lt

def rtGt : Value → Value → Answer := rtCompare .gt

def rtLte : Value → Value → Answer := rtCompare .lte

def rtGte : Value → Value → Answer := rtCompare .gte

def bridge : KnownFn → Value → Value → Answer
  | .add => rtAdd num
  | .sub => rtSub num
  | .mul => rtMul num
  | .div => rtDiv num
  | .rem => rtRem num
  | .eq => rtEq num
  | .lt => rtLt
  | .gt => rtGt
  | .lte => rtLte
  | .gte => rtGte

end Bridges

/-! ## Two tiers -/

/-- The same value, or two errors. -/
inductive Same : Answer → Answer → Prop
  | value (v : Value) : Same (.ok v) (.ok v)
  | error (e e' : ValueError) : Same (.error (.error e)) (.error (.error e'))

/-- Numbers of every kind. -/
inductive Number : Value → Prop
  | long (n : Int64) : Number (.long n)
  | bigInt (n : Int) : Number (.bigInt n)
  | ratio (r : ℚ) : Number (.ratio r)
  | bigDecimal (d : BigDecimal) : Number (.bigDecimal d)
  | double (x : F64) : Number (.double x)

/-- A number that machine code has an instruction for. -/
def isPrimitive : Value → Bool
  | .long _ | .double _ => true
  | _ => false

/-- How two numbers compare: exactly, or as decimals if one of them is one, or as doubles if one of them
is one, where a NaN compares with nothing. -/
inductive Ordered (num : Tower) (a b : Value) : Option Ordering → Prop
  | exact (ha : Exact a) (hb : Exact b) : Ordered num a b (some (compare (number a) (number b)))
  | decimal {x y : BigDecimal} (hwidest : widestCategory [a, b] = .ok .bigDecimal)
      (ha : numericAsBigDecimal num.toArith a = .ok x) (hb : numericAsBigDecimal num.toArith b = .ok y) :
      Ordered num a b (some (compare x.value y.value))
  | double {x y : F64} (hwidest : widestCategory [a, b] = .ok .double)
      (ha : numericAsF64 num.toArith a = .ok x) (hb : numericAsF64 num.toArith b = .ok y) :
      Ordered num a b (f64PartialCmp x y)

/-- A comparison does not hold. Beside a NaN only `>=` holds. -/
def Refused (num : Tower) (a b : Value) : KnownFn → Prop
  | .lt => ∃ o, Ordered num a b o ∧ o ≠ some .lt
  | .gt => ∃ o, Ordered num a b o ∧ o ≠ some .gt
  | .lte => doubleIs F64.isNaN a = true ∨ doubleIs F64.isNaN b = true ∨ Ordered num a b (some .gt)
  | .gte => Ordered num a b (some .lt)
  | _ => False

/-- The quotient of the integers fits, and there is one. -/
def Divisible (m n : Int64) : Prop := n ≠ 0 ∧ ¬ (m = Int64.minValue ∧ n = -1)

/-- The operands on which a known function keeps its answer. -/
def Promoted (num : Tower) (op : KnownFn) (a b : Value) : Prop :=
  match op with
  | .add | .sub | .mul => isPrimitive a = true ∧ isPrimitive b = true
  | .div => isPrimitive a = true ∧ isPrimitive b = true ∧
      ∀ m n, a = .long m → b = .long n → Divisible m n
  | .rem => (∃ m n, a = .long m ∧ b = .long n ∧ Divisible m n) ∨ ∃ x y, a = .double x ∧ b = .double y
  | .eq => True
  | .lt | .gt | .lte | .gte => (isPrimitive a = true ∧ isPrimitive b = true) ∨ Refused num a b op

theorem same_ok {v : Value} {r : Answer} : Same (.ok v) r ↔ r = .ok v := by
  constructor
  · rintro ⟨⟩
    rfl
  · rintro rfl
    exact .value v

/-! ## The builtins return numbers -/

/-- Every value the computation returns has the property. -/
def Results (P : Value → Prop) (r : Answer) : Prop := ∀ v, r = .ok v → P v

variable {P : Value → Prop}

theorem results_bind {α : Type} {x : Builtins.Outcome α} {f : α → Answer}
    (h : ∀ a, Results P (f a)) : Results P (x >>= f) := by
  intro v hv
  cases x with
  | error e => cases hv
  | ok a => exact h a v hv

theorem results_ok {v : Value} (h : P v) : Results P (.ok v) := by
  intro w hw
  exact Except.ok.inj hw ▸ h

theorem results_error (e : Raised) : Results P (.error e) := by
  intro w hw
  cases hw

section Native

variable (num : Tower)

theorem number_simplifyBigInt (n : Int) : Number (simplifyBigInt n) := by
  unfold simplifyBigInt
  split
  · exact .long _
  · exact .bigInt _

theorem number_simplifyRatioWith (r : ℚ) (preserve : Bool) :
    Number (simplifyRatioWith r preserve) := by
  unfold simplifyRatioWith
  split_ifs
  · exact .bigInt _
  · exact number_simplifyBigInt _
  · exact .ratio r

theorem results_checkedFold (combine : Int → Int → Int) : ∀ (vs : List Value) (acc : Int64),
    Results Number (checkedFold num combine acc vs)
  | [], acc => results_ok (.long acc)
  | v :: vs, acc => by
    refine results_bind fun n => ?_
    split
    · exact results_checkedFold combine vs _
    · exact results_bind fun big => results_ok (number_simplifyBigInt big)

theorem results_foldNumbers (op : Builtins.Operator) (first : Value) (rest : List Value)
    (cat : Builtins.NumCat) : Results Number (foldNumbers num op first rest cat) := by
  cases cat with
  | double => exact results_bind fun _ => results_bind fun x => results_ok (.double x)
  | bigDecimal =>
    exact results_bind fun _ => results_bind fun _ => results_bind fun d => results_ok (.bigDecimal d)
  | ratio =>
    exact results_bind fun _ => results_bind fun r => results_ok (number_simplifyRatioWith r false)
  | bigInt => exact results_bind fun _ => results_bind fun n => results_ok (.bigInt n)
  | long => exact results_bind fun n => results_checkedFold num _ rest n

theorem results_divide (first : Value) (rest : List Value) :
    Results Number (divide num first rest) := by
  refine results_bind fun cat => ?_
  cases cat with
  | double => exact results_bind fun _ => results_bind fun x => results_ok (.double x)
  | bigDecimal =>
    exact results_bind fun _ => results_bind fun _ => results_bind fun d => results_ok (.bigDecimal d)
  | _ => exact results_bind fun _ => results_bind fun r => results_ok (number_simplifyRatioWith r _)

theorem results_ite {c : Prop} [Decidable c] {r r' : Answer} (h : Results P r)
    (h' : Results P r') : Results P (if c then r else r') := by grind

theorem results_remainder (ops : Builtins.RemainderOps) (x y : Value) :
    Results Number (remainder num.toArith ops x y) := by
  refine results_ite (results_error _) (results_ite (results_error _) (results_ite (results_error _)
    (results_ite (results_ok (.double _)) (results_ite ?_ (results_ite ?_ (results_ite ?_
      (results_ite ?_ ?_)))))))
  -- two conversions, and an error for a zero divisor
  all_goals refine results_bind fun a => results_bind fun b => results_ite (results_error _) ?_
  · exact results_ok (.double _)
  · exact results_ok (.bigDecimal _)
  · exact results_ite (results_ok (.bigInt _)) (results_ok (.ratio _))
  · exact results_ok (.bigInt _)
  · exact results_bind fun r => results_ok (.long r)

theorem results_callNative {op : KnownFn} (hop : op ∈ [.add, .sub, .mul, .div, .rem]) (a b : Value) :
    Results Number (callNative num op [a, b]) := by
  simp only [List.mem_cons, List.not_mem_nil, or_false] at hop
  rcases hop with rfl | rfl | rfl | rfl | rfl
  iterate 3 exact results_bind fun cat => results_foldNumbers num _ _ _ cat
  · exact results_divide num a [b]
  · exact results_remainder num _ a b

end Native

/-! ## Operands of other kinds -/

section Others

variable (num : Tower) {a b : Value}

/-- Two longs or doubles, or operands of other kinds. -/
inductive Operands : Value → Value → Prop where
  | longs (m n : Int64) : Operands (.long m) (.long n)
  | doubles (x y : F64) : Operands (.double x) (.double y)
  | longDouble (m : Int64) (y : F64) : Operands (.long m) (.double y)
  | doubleLong (x : F64) (n : Int64) : Operands (.double x) (.long n)
  | other {a b : Value} (h : ¬ (isPrimitive a = true ∧ isPrimitive b = true)) : Operands a b

theorem operands (a b : Value) : Operands a b := by
  by_cases h : isPrimitive a = true ∧ isPrimitive b = true
  · cases a with
    | long | double =>
      cases b with
      | long | double => constructor
      | _ => cases h.2
    | _ => cases h.1
  · exact .other h

variable (h : ¬ (isPrimitive a = true ∧ isPrimitive b = true))

include h

theorem builtinArith_other (op : KnownFn) : builtinArith num op [a, b] = callNative num op [a, b] := by
  unfold builtinArith
  split
  all_goals first
    | rfl
    | (rename_i heq; cases heq; exact absurd ⟨rfl, rfl⟩ h)

theorem builtinCompare_other {op : KnownFn} (hop : isCompare op = true) :
    builtinCompare num op [a, b] = callNative num op [a, b] := by
  unfold builtinCompare
  split
  all_goals first
    | exact if_pos hop
    | (rename_i heq; cases heq; exact absurd ⟨rfl, rfl⟩ h)
    | grind

/-- The bridges answer `nil`, which is not a number. -/
theorem not_same_other {op : KnownFn} (hop : op ∈ [.add, .sub, .mul, .div, .rem]) :
    ¬ Same (bridge num op a b) (dispatchKnownFn num op [a, b]) := by
  have hresults := results_callNative num hop a b
  simp only [List.mem_cons, List.not_mem_nil, or_false] at hop
  have hanswers : dispatchKnownFn num op [a, b] = callNative num op [a, b] ∧
      bridge num op a b = .ok .nil := by
    rcases hop with rfl | rfl | rfl | rfl | rfl
    all_goals
      refine ⟨builtinArith_other num h _, ?_⟩
      simp only [bridge, rtAdd, rtSub, rtMul, rtChecked, rtDiv, rtRem]
      split
      all_goals first
        | rfl
        | exact absurd ⟨rfl, rfl⟩ h
  rw [hanswers.1, hanswers.2, same_ok]
  intro hnil
  cases hresults _ hnil

theorem rtCompare_other (op : KnownFn) : rtCompare op a b = .ok (.bool false) := by
  unfold rtCompare
  split
  all_goals first
    | rfl
    | exact absurd ⟨rfl, rfl⟩ h

end Others

/-! ## Comparisons -/

section Comparisons

variable (num : Tower) {a b : Value}

variable {num} in
theorem Ordered.numCompare {o : Option Ordering} (h : Ordered num a b o) :
    numCompare num a b = .ok (o.getD .eq) := by
  cases h with
  | exact ha hb => exact numCompare_exact num ha hb
  | decimal hwidest ha hb =>
    rw [Builtins.numCompare, hwidest]
    dsimp only [Except.bind, bind]
    rw [ha, hb]
    exact congrArg Except.ok (BigDecimal.compare_aligned _ _)
  | double hwidest ha hb =>
    rw [Builtins.numCompare, hwidest]
    dsimp only [Except.bind, bind]
    rw [ha, hb]
    rfl

theorem ordered_of_numCompare {c : Ordering} (h : numCompare num a b = .ok c) :
    ∃ o, Ordered num a b o ∧ o.getD .eq = c := by
  have hexact : ∀ {v : Value} {q : ℚ}, numericAsRatio v = .ok q → Exact v := by
    intro v q hv
    cases v with
    | long | bigInt | ratio => constructor
    | _ => cases hv
  have hok : ∀ {o : Option Ordering}, Ordered num a b o → ∃ o, Ordered num a b o ∧ o.getD .eq = c :=
    fun ho => ⟨_, ho, Except.ok.inj (ho.numCompare.symm.trans h)⟩
  have hcompare := h
  rw [numCompare] at hcompare
  obtain ⟨cat, hwidest, hcompare⟩ := bind_eq_ok hcompare
  cases cat with
  | double | bigDecimal =>
    obtain ⟨x, hx, hcompare⟩ := bind_eq_ok hcompare
    obtain ⟨y, hy, -⟩ := bind_eq_ok hcompare
    first
      | exact hok (.double hwidest hx hy)
      | exact hok (.decimal hwidest hx hy)
  | _ =>
    obtain ⟨x, hx, hcompare⟩ := bind_eq_ok hcompare
    obtain ⟨y, hy, -⟩ := bind_eq_ok hcompare
    exact hok (.exact (hexact hx) (hexact hy))

theorem test_eq_false_iff (test : Ordering → Bool) :
    (do return .bool (← (do return test (← numCompare num a b)))) = (.ok (.bool false) : Answer) ↔
      ∃ o, Ordered num a b o ∧ test (o.getD .eq) = false := by
  constructor
  · intro h
    obtain ⟨t, ht, hfalse⟩ := bind_eq_ok h
    obtain ⟨c, hc, htest⟩ := bind_eq_ok ht
    obtain ⟨o, ho, rfl⟩ := ordered_of_numCompare num hc
    refine ⟨o, ho, ?_⟩
    cases htest
    exact Value.bool.inj (Except.ok.inj hfalse)
  · rintro ⟨o, ho, htest⟩
    rw [ho.numCompare]
    exact congrArg (fun t => Except.ok (Value.bool t)) htest

theorem callNative_iff_refused {op : KnownFn} (hop : isCompare op = true) :
    callNative num op [a, b] = .ok (.bool false) ↔ Refused num a b op := by
  cases op with
  | lt =>
    rw [callNative, builtinLt, chain_two]
    refine (test_eq_false_iff num (· == .lt)).trans (exists_congr fun o => and_congr_right fun _ => ?_)
    rcases o with _ | (_ | _ | _) <;> simp
  | gt =>
    rw [callNative, builtinGt, chain_two]
    refine (test_eq_false_iff num (· == .gt)).trans (exists_congr fun o => and_congr_right fun _ => ?_)
    rcases o with _ | (_ | _ | _) <;> simp
  | lte =>
    rw [callNative, builtinLte, chain_two, Refused]
    by_cases ha : doubleIs F64.isNaN a = true
    · rw [if_pos ha]
      exact iff_of_true rfl (.inl ha)
    · by_cases hb : doubleIs F64.isNaN b = true
      · rw [if_neg ha, if_pos hb]
        exact iff_of_true rfl (.inr (.inl hb))
      · rw [if_neg ha, if_neg hb, or_iff_right ha, or_iff_right hb]
        refine (test_eq_false_iff num (· != .gt)).trans ⟨?_, fun ho => ⟨_, ho, rfl⟩⟩
        rintro ⟨_ | (_ | _ | _), ho, ⟨⟩⟩
        exact ho
  | gte =>
    rw [callNative, builtinGte, chain_two]
    refine (test_eq_false_iff num (· != .lt)).trans ⟨?_, fun ho => ⟨_, ho, rfl⟩⟩
    rintro ⟨_ | (_ | _ | _), ho, ⟨⟩⟩
    exact ho
  | _ => cases hop

end Comparisons

/-! ## The law -/

section Tiers

variable (num : Tower)

theorem same_checked (n : Int) : Same (checked n) (checked n) := by
  unfold checked
  split
  · exact .value _
  · exact .error _ _

theorem same_checked_iff {op : KnownFn} (hop : op ∈ [.add, .sub, .mul]) (a b : Value) :
    Same (bridge num op a b) (dispatchKnownFn num op [a, b]) ↔
      isPrimitive a = true ∧ isPrimitive b = true := by
  cases operands a b with
  | other h => exact iff_of_false (not_same_other num h (by grind)) h
  | _ =>
    refine iff_of_true ?_ ⟨rfl, rfl⟩
    simp only [List.mem_cons, List.not_mem_nil, or_false] at hop
    rcases hop with rfl | rfl | rfl <;> first | exact same_checked _ | exact .value _

/-- Division of two integers: `nil` against an error for the divisor zero, and an abort against a panic
for a quotient that does not fit. -/
theorem same_divide_iff {x y : Int64} {divide : Int64 → Int64 → Builtins.Outcome Int64} {m : String}
    {result : Int64} (hover : x = Int64.minValue ∧ y = -1 → divide x y = .error (.panic m))
    (hfits : ¬ (x = Int64.minValue ∧ y = -1) → divide x y = .ok result) :
    Same (if y ≠ 0 then do return .long (← divide x y) else .ok .nil)
      (if y = 0 then other "Divide by zero" else do return .long (← divide x y)) ↔ Divisible x y := by
  by_cases hy : y = 0
  · rw [if_neg (not_not_intro hy), if_pos hy]
    exact iff_of_false nofun fun h => h.1 hy
  · rw [if_pos hy, if_neg hy]
    by_cases hmin : x = Int64.minValue ∧ y = -1
    · rw [hover hmin]
      exact iff_of_false nofun fun h => h.2 hmin
    · rw [hfits hmin]
      exact iff_of_true (.value _) ⟨hy, hmin⟩

theorem same_div_iff (a b : Value) :
    Same (bridge num .div a b) (dispatchKnownFn num .div [a, b]) ↔ Promoted num .div a b := by
  cases operands a b with
  | longs x y =>
    have hlongs : Promoted num .div (.long x) (.long y) ↔ Divisible x y :=
      ⟨fun h => h.2.2 x y rfl rfl, fun h => ⟨rfl, rfl, by rintro m n ⟨⟩ ⟨⟩; exact h⟩⟩
    rw [hlongs]
    exact same_divide_iff (fun h => if_pos h) fun h => if_neg h
  | doubles | doubleLong => exact iff_of_true (.value _) ⟨rfl, rfl, fun m n h => by cases h⟩
  | longDouble => exact iff_of_true (.value _) ⟨rfl, rfl, fun m n _ h => by cases h⟩
  | other h =>
    refine iff_of_false (not_same_other num h (by decide)) ?_
    exact fun hpromoted => h ⟨hpromoted.1, hpromoted.2.1⟩

theorem same_rem_iff (a b : Value) :
    Same (bridge num .rem a b) (dispatchKnownFn num .rem [a, b]) ↔ Promoted num .rem a b := by
  have hnil : ∀ z : F64, ¬ Same (.ok .nil) (.ok (.double z)) := by
    intro z
    rw [same_ok]
    exact fun h => by cases h
  cases operands a b with
  | longs x y =>
    have hlongs : Promoted num .rem (.long x) (.long y) ↔ Divisible x y := by
      constructor
      · rintro (⟨m, n, ⟨⟩, ⟨⟩, h⟩ | ⟨x, y, ⟨⟩, -⟩)
        exact h
      · exact fun h => .inl ⟨x, y, rfl, rfl, h⟩
    rw [hlongs]
    exact same_divide_iff (fun h => if_pos h) fun h => if_neg h
  | doubles x y => exact iff_of_true (.value _) (.inr ⟨x, y, rfl, rfl⟩)
  | longDouble =>
    refine iff_of_false (hnil _) ?_
    rintro (⟨m, n, -, heq, -⟩ | ⟨x, y, heq, -⟩) <;> cases heq
  | doubleLong =>
    refine iff_of_false (hnil _) ?_
    rintro (⟨m, n, heq, -⟩ | ⟨x, y, -, heq⟩) <;> cases heq
  | other h =>
    refine iff_of_false (not_same_other num h (by decide)) ?_
    rintro (⟨m, n, rfl, rfl, -⟩ | ⟨x, y, rfl, rfl⟩) <;> exact h ⟨rfl, rfl⟩

theorem same_compare_iff {op : KnownFn} (hop : isCompare op = true) (a b : Value) :
    Same (rtCompare op a b) (builtinCompare num op [a, b]) ↔
      (isPrimitive a = true ∧ isPrimitive b = true) ∨ Refused num a b op := by
  cases operands a b with
  | other h =>
    rw [rtCompare_other h, builtinCompare_other num h hop, same_ok, callNative_iff_refused num hop]
    exact (or_iff_right h).symm
  | _ => exact iff_of_true (.value _) (.inl ⟨rfl, rfl⟩)

/-- **Two tiers.** A bridge and the IR interpreter answer alike exactly on operands that are
`Promoted`. -/
theorem tier_arithmetic_iff (num : Tower) (op : KnownFn) (a b : Value) :
    Same (bridge num op a b) (dispatchKnownFn num op [a, b]) ↔ Promoted num op a b := by
  cases op with
  | add | sub | mul => exact same_checked_iff num (by decide) a b
  | div => exact same_div_iff num a b
  | rem => exact same_rem_iff num a b
  | eq => exact iff_of_true (.value _) trivial
  | lt | gt | lte | gte => exact same_compare_iff num rfl a b

end Tiers

/-- `(+ 1N 2)` is `3N` in the IR interpreter and `nil` in compiled code, `(/ 1 0)` is an error and
`nil`, and `(< 1N 2)` is `true` and `false`. -/
theorem tiers_apart : bridge integerTower .add (.bigInt 1) (.long 2) = .ok .nil ∧
      dispatchKnownFn integerTower .add [.bigInt 1, .long 2] = .ok (.bigInt 3) ∧
      bridge integerTower .div (.long 1) (.long 0) = .ok .nil ∧
      dispatchKnownFn integerTower .div [.long 1, .long 0] =
        .error (.error (.other "Divide by zero")) ∧
      bridge integerTower .lt (.bigInt 1) (.long 2) = .ok (.bool false) ∧
      dispatchKnownFn integerTower .lt [.bigInt 1, .long 2] = .ok (.bool true) := by
  refine ⟨rfl, rfl, rfl, rfl, rfl, ?_⟩
  show (numCompare integerTower (.bigInt 1) (.long 2) >>= _) >>= _ = _
  rfl

end Clojurust.Compiler
