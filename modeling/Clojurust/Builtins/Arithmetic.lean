import Clojurust.Builtins.Division

/-!
# Arithmetic

`+`, `-`, `*`, `/` and the quoted `+'`, `-'`, `*'` (`builtin_add` to `builtin_div` of
`crates/cljrs-builtins/src/builtins.rs`) on any number of operands.

* `widestCategory` — the kind of number in which the operands are added up;
* `checkedFold` — the loop over 64-bit integers, which goes on in big integers after an overflow;
* `foldNumbers`, `divide` — the loops of the operators at each kind;
* `Yields` — a result that is an exact number; `foldNumbers_exact`, `divide_exact` — on integers and
  ratios the operators compute with rational numbers.
-/

namespace Clojurust.Builtins

open List

/-! ## The numeric tower -/

/-- Arithmetic on doubles and decimals, with all four operators. -/
structure Tower extends Arith where
  f64Sub : F64 → F64 → F64
  f64Mul : F64 → F64 → F64
  f64Div : F64 → F64 → F64
  decimalSub : BigDecimal → BigDecimal → BigDecimal
  decimalMul : BigDecimal → BigDecimal → BigDecimal
  decimalDiv : BigDecimal → BigDecimal → BigDecimal
  /-- `apply_precision`: the rounding of `with-precision`, if it is active. -/
  applyPrecision : BigDecimal → Outcome BigDecimal
  /-- `apply_precision_or_default`: ten digits if there is no `with-precision`. -/
  applyPrecisionOrDefault : BigDecimal → Outcome BigDecimal

/-- The kinds of numbers, the narrower ones first. -/
inductive NumCat where
  | long
  | bigInt
  | ratio
  | bigDecimal
  | double
  deriving DecidableEq

/-- The place of a kind in the derived order. -/
def NumCat.rank : NumCat → Nat
  | long => 0
  | bigInt => 1
  | ratio => 2
  | bigDecimal => 3
  | double => 4

def numCategory : Value → Outcome NumCat
  | .long _ => .ok .long
  | .bigInt _ => .ok .bigInt
  | .ratio _ => .ok .ratio
  | .bigDecimal _ => .ok .bigDecimal
  | .double _ => .ok .double
  | v => .error (.error (.wrongType "number" (typeName v)))

/-- One round of the loop of `widest_category`. -/
def widen (cat : NumCat) (v : Value) : Outcome NumCat := do
  let c ← numCategory v
  return if cat.rank < c.rank then c else cat

def widestCategory (args : List Value) : Outcome NumCat := args.foldlM widen .long

def simplifyBigInt (n : Int) : Value :=
  match toI64? n with
  | some l => .long l
  | none => .bigInt n

def simplifyRatioWith (r : ℚ) (preserveBigInt : Bool) : Value :=
  if r.den = 1 then
    if preserveBigInt then .bigInt (ratioToInteger r) else simplifyBigInt (ratioToInteger r)
  else .ratio r

def simplifyRatio (r : ℚ) : Value := simplifyRatioWith r false

/-! ## The operators -/

/-- One operator at each kind of number. -/
structure Operator where
  f64 : F64 → F64 → F64
  decimal : BigDecimal → BigDecimal → BigDecimal
  ratio : ℚ → ℚ → ℚ
  integer : Int → Int → Int

/-- A loop that converts one operand after the other and combines it with what is there. -/
def accumulate {α : Type} (convert : Value → Outcome α) (combine : α → α → α) (init : α)
    (args : List Value) : Outcome α :=
  args.foldlM (fun acc v => do return combine acc (← convert v)) init

section Operators

variable (num : Tower)

def plus : Operator := ⟨num.f64Add, num.decimalAdd, (· + ·), (· + ·)⟩

def minus : Operator := ⟨num.f64Sub, num.decimalSub, (· - ·), (· - ·)⟩

def times : Operator := ⟨num.f64Mul, num.decimalMul, (· * ·), (· * ·)⟩

/-- The loop over 64-bit integers. The operand that overflows and those behind it are taken as big
integers. -/
def checkedFold (combine : Int → Int → Int) : Int64 → List Value → Outcome Value
  | acc, [] => .ok (.long acc)
  | acc, v :: vs => do
    let n ← numericAsI64 num.toArith v
    match toI64? (combine acc.toInt n.toInt) with
    | some s => checkedFold combine s vs
    | none =>
      let big ← accumulate numericAsBigInt combine (combine acc.toInt n.toInt) vs
      return simplifyBigInt big

/-- The loops of `builtin_add`, `builtin_sub` and `builtin_mul` at a kind: `first` is what they start
with. -/
def foldNumbers (op : Operator) (first : Value) (rest : List Value) : NumCat → Outcome Value
  | .double => do
    let init ← numericAsF64 num.toArith first
    return .double (← accumulate (numericAsF64 num.toArith) op.f64 init rest)
  | .bigDecimal => do
    let init ← numericAsBigDecimal num.toArith first
    let result ← accumulate (numericAsBigDecimal num.toArith) op.decimal init rest
    return .bigDecimal (← num.applyPrecision result)
  | .ratio => do
    let init ← numericAsRatio first
    return simplifyRatio (← accumulate numericAsRatio op.ratio init rest)
  | .bigInt => do
    let init ← numericAsBigInt first
    return .bigInt (← accumulate numericAsBigInt op.integer init rest)
  | .long => do
    let init ← numericAsI64 num.toArith first
    checkedFold num op.integer init rest

/-- `builtin_add`: all sums start with zero. -/
def builtinAdd (args : List Value) : Outcome Value := do
  foldNumbers num (plus num) (.long 0) args (← widestCategory args)

/-- `builtin_mul`: all products start with one. -/
def builtinMul (args : List Value) : Outcome Value := do
  foldNumbers num (times num) (.long 1) args (← widestCategory args)

/-- The sign bit of a double, flipped. -/
def f64Negate (x : F64) : F64 := ⟨x.bits ^^^ 0x8000000000000000⟩

/-- `-` with one operand. -/
def negate : Value → Outcome Value
  | .long n =>
    match toI64? (-n.toInt) with
    | some r => .ok (.long r)
    | none => .ok (.bigInt (-n.toInt))
  | .double f => .ok (.double (f64Negate f))
  | .bigInt n => .ok (simplifyBigInt (-n))
  | .bigDecimal d => .ok (.bigDecimal ⟨-d.intVal, d.scale⟩)
  | .ratio r => .ok (simplifyRatio (-r))
  | v => .error (.error (.wrongType "number" (typeName v)))

def builtinSub : List Value → Outcome Value
  | [] => .error (.error (.arityError "-" "1+" 0))
  | [x] => negate x
  | x :: rest => do foldNumbers num (minus num) x rest (← widestCategory (x :: rest))

/-- Division by one divisor after the other, none of them zero. -/
def divideFold {α : Type} (convert : Value → Outcome α) (isZero : α → Bool) (combine : α → α → α)
    (init : α) (divisors : List Value) : Outcome α :=
  divisors.foldlM (fun acc v => do
    let d ← convert v
    if isZero d then other "divide by zero" else return combine acc d) init

/-- `builtin_div` with two operands or more. -/
def divide (first : Value) (rest : List Value) : Outcome Value := do
  match (← widestCategory (first :: rest)) with
  | .double =>
    let init ← numericAsF64 num.toArith first
    return .double (← accumulate (numericAsF64 num.toArith) num.f64Div init rest)
  | .bigDecimal =>
    let init ← numericAsBigDecimal num.toArith first
    let result ← divideFold (numericAsBigDecimal num.toArith) (fun d => decide (d.intVal = 0))
      num.decimalDiv init rest
    return .bigDecimal (← num.applyPrecisionOrDefault result)
  | cat =>
    let init ← numericAsRatio first
    let result ← divideFold numericAsRatio (fun d => decide (d = 0)) (· / ·) init rest
    return simplifyRatioWith result (cat == .bigInt)

def builtinDiv : List Value → Outcome Value
  | [] => .error (.error (.arityError "/" "1+" 0))
  | [x] => divide num (.long 1) [x]
  | x :: rest => divide num x rest

/-! ## The quoted operators -/

/-- The integer that `+'`, `-'` and `*'` return: big above `0x7f00000000000000`. -/
def promote (n : Int) : Outcome Value :=
  if 0x7f00000000000000 < n ∨ n < -0x8000000000000000 then .ok (.bigInt n)
  else
    match toI64? n with
    | some l => .ok (.long l)
    | none => .error (.panic "called `Option::unwrap()` on a `None` value")

/-- A decimal that is too large for a double stays one. -/
def decimalOrDouble (d : BigDecimal) : Outcome Value :=
  match num.decimalToF64 d with
  | some f => if isInfinite f then .ok (.bigDecimal d) else .ok (.double f)
  | none => .ok (.bigDecimal d)

/-- `builtin_add_quote`. -/
def builtinAddQuote (args : List Value) : Outcome Value := do
  match (← widestCategory args) with
  | .double =>
    let sum ← accumulate (numericAsBigDecimal num.toArith) num.decimalAdd (.ofInt 0) args
    match num.decimalToF64 sum with
    | some f => return .double f
    | none => return .bigDecimal (← num.applyPrecision sum)
  | .long => promote (← accumulate numericAsBigInt (· + ·) 0 args)
  | _ => builtinAdd num args

/-- `builtin_sub_quote`: the sum of doubles starts with zero, that of integers with the first
operand. -/
def builtinSubQuote (args : List Value) : Outcome Value := do
  match (← widestCategory args), args with
  | .double, _ :: _ =>
    let sum ← accumulate (numericAsBigDecimal num.toArith) num.decimalSub (.ofInt 0) args
    decimalOrDouble num sum
  | .long, first :: rest =>
    let init ← numericAsBigInt first
    promote (← accumulate numericAsBigInt (· - ·) init rest)
  | _, _ => builtinSub num args

/-- `builtin_mul_quote`. -/
def builtinMulQuote (args : List Value) : Outcome Value := do
  match (← widestCategory args) with
  | .double =>
    let product ← accumulate (numericAsBigDecimal num.toArith) num.decimalMul (.ofInt 1) args
    decimalOrDouble num product
  | .long => promote (← accumulate numericAsBigInt (· * ·) 1 args)
  | _ => builtinMul num args

end Operators

/-! ## Loops -/

theorem accumulate_ok {α : Type} {convert : Value → Outcome α} {combine : α → α → α} {g : Value → α} :
    ∀ {args : List Value} {init : α}, (∀ v ∈ args, convert v = .ok (g v)) →
    accumulate convert combine init args = .ok (args.foldl (fun acc v => combine acc (g v)) init)
  | [], _, _ => rfl
  | v :: args, init, h => by
    rw [forall_mem_cons] at h
    have hstep : accumulate convert combine init (v :: args) =
        accumulate convert combine (combine init (g v)) args := by
      rw [accumulate, foldlM_cons, h.1]
      rfl
    rw [hstep, accumulate_ok h.2]
    rfl

theorem toI64?_eq_some {n : Int} {l : Int64} : toI64? n = some l ↔ l.toInt = n := by
  constructor
  · intro h
    unfold toI64? at h
    split at h
    · obtain rfl := Option.some.inj h
      rename_i hfits
      exact Int64.toInt_ofInt_of_le (by simpa using hfits.1) (by simpa using hfits.2)
    · cases h
  · rintro rfl
    exact toI64?_toInt l

/-! ## Exact numbers -/

/-- The number of an exact kind that a value stands for. -/
def numberOf : Value → Option ℚ
  | .long n => some n.toInt
  | .bigInt n => some n
  | .ratio r => some r
  | _ => none

/-- Integers and ratios. -/
inductive Exact : Value → Prop
  | long (n : Int64) : Exact (.long n)
  | bigInt (n : Int) : Exact (.bigInt n)
  | ratio (r : ℚ) : Exact (.ratio r)

/-- The number, and zero for anything else. -/
def number (v : Value) : ℚ := (numberOf v).getD 0

/-- The integer, and zero for anything else. -/
def integer (v : Value) : Int := (integerOf v).getD 0

/-- The kind of an exact number. -/
def exactCat : Value → NumCat
  | .bigInt _ => .bigInt
  | .ratio _ => .ratio
  | _ => .long

variable {v : Value} {op : Operator}

theorem Exact.numberOf (h : Exact v) : numberOf v = some (number v) := by
  cases h <;> rfl

theorem exact_of_numberOf {q : ℚ} (h : Builtins.numberOf v = some q) : Exact v ∧ number v = q := by
  refine ⟨?_, by rw [number, h]; rfl⟩
  cases v with
  | long n => exact .long n
  | bigInt n => exact .bigInt n
  | ratio r => exact .ratio r
  | _ => cases h

theorem Exact.numericAsRatio (h : Exact v) : numericAsRatio v = .ok (number v) := by
  cases h <;> rfl

theorem Exact.numericAsBigInt (h : Exact v) (hcat : (exactCat v).rank ≤ 1) :
    numericAsBigInt v = .ok (integer v) ∧ (integer v : ℚ) = number v := by
  cases h with
  | long | bigInt => exact ⟨rfl, rfl⟩
  | ratio r => simp [exactCat, NumCat.rank] at hcat

theorem Exact.isLong (h : Exact v) (hcat : (exactCat v).rank ≤ 0) : ∃ n, v = .long n := by
  cases h with
  | long n => exact ⟨n, rfl⟩
  | bigInt | ratio => simp [exactCat, NumCat.rank] at hcat

theorem exists_longs : ∀ {args : List Value}, (∀ v ∈ args, ∃ n, v = .long n) →
    ∃ ns : List Int64, args = ns.map .long
  | [], _ => ⟨[], rfl⟩
  | v :: args, h => by
    rw [forall_mem_cons] at h
    obtain ⟨n, rfl⟩ := h.1
    obtain ⟨ns, rfl⟩ := exists_longs h.2
    exact ⟨n :: ns, rfl⟩

theorem foldlM_widen : ∀ {args : List Value} {cat : NumCat}, (∀ v ∈ args, Exact v) → cat.rank ≤ 2 →
    ∃ cat', args.foldlM widen cat = .ok cat' ∧ cat'.rank ≤ 2 ∧ cat.rank ≤ cat'.rank ∧
      ∀ v ∈ args, (exactCat v).rank ≤ cat'.rank
  | [], cat, _, hcat => ⟨cat, rfl, hcat, le_rfl, fun _ hv => nomatch hv⟩
  | v :: args, cat, h, hcat => by
    rw [forall_mem_cons] at h
    have hkind : numCategory v = .ok (exactCat v) ∧ (exactCat v).rank ≤ 2 := by
      cases h.1 <;> exact ⟨rfl, by simp [exactCat, NumCat.rank]⟩
    have hstep : ∃ c, widen cat v = .ok c ∧ c.rank ≤ 2 ∧ cat.rank ≤ c.rank ∧
        (exactCat v).rank ≤ c.rank := by
      refine ⟨if cat.rank < (exactCat v).rank then exactCat v else cat, ?_, ?_⟩
      · rw [widen, hkind.1]
        rfl
      · split <;> omega
    obtain ⟨c, hwiden, hc, hle, hv⟩ := hstep
    obtain ⟨cat', hfold, hcat', hle', hall⟩ := foldlM_widen h.2 hc
    refine ⟨cat', ?_, hcat', hle.trans hle', ?_⟩
    · rw [foldlM_cons, hwiden]
      exact hfold
    · grind

theorem widestCategory_exact {args : List Value} (h : ∀ v ∈ args, Exact v) :
    ∃ cat, widestCategory args = .ok cat ∧ cat.rank ≤ 2 ∧ ∀ v ∈ args, (exactCat v).rank ≤ cat.rank := by
  have hlong : NumCat.long.rank ≤ 2 := by decide
  obtain ⟨cat, hfold, hcat, -, hall⟩ := foldlM_widen h hlong
  exact ⟨cat, hfold, hcat, hall⟩

theorem numberOf_simplifyBigInt (n : Int) : numberOf (simplifyBigInt n) = some (n : ℚ) := by
  unfold simplifyBigInt
  split
  · rename_i l hl
    rw [toI64?_eq_some] at hl
    rw [← hl]
    rfl
  · rfl

theorem cast_ratioToInteger {r : ℚ} (h : r.den = 1) : (ratioToInteger r : ℚ) = r := by
  rw [ratioToInteger, h, Nat.cast_one, Int.tdiv_one]
  exact Rat.coe_int_num_of_den_eq_one h

theorem numberOf_simplifyRatioWith (r : ℚ) (preserveBigInt : Bool) :
    numberOf (simplifyRatioWith r preserveBigInt) = some r := by
  unfold simplifyRatioWith
  split
  · rename_i hden
    rw [← cast_ratioToInteger hden]
    cases preserveBigInt with
    | true =>
      rw [cast_ratioToInteger hden]
      exact congrArg some (cast_ratioToInteger hden)
    | false =>
      rw [cast_ratioToInteger hden]
      exact (numberOf_simplifyBigInt _).trans (congrArg some (cast_ratioToInteger hden))
  · rfl

/-- The result is an exact number. -/
def Yields (r : Outcome Value) (q : ℚ) : Prop := ∃ v, r = .ok v ∧ numberOf v = some q

/-- On integers the operator is that of rational numbers. -/
def Operator.Lifts (op : Operator) : Prop := ∀ a b : Int, (op.integer a b : ℚ) = op.ratio a b

theorem plus_lifts (num : Tower) : (plus num).Lifts := fun a b => Int.cast_add a b

theorem minus_lifts (num : Tower) : (minus num).Lifts := fun a b => Int.cast_sub a b

theorem times_lifts (num : Tower) : (times num).Lifts := fun a b => Int.cast_mul a b

theorem checkedFold_long (num : Tower) (combine : Int → Int → Int) : ∀ (ns : List Int64) (acc : Int64),
    checkedFold num combine acc (ns.map .long) =
      .ok (simplifyBigInt ((ns.map Int64.toInt).foldl combine acc.toInt))
  | [], acc => by
    have hacc : simplifyBigInt acc.toInt = .long acc := by rw [simplifyBigInt, toI64?_toInt]
    rw [map_nil, map_nil, foldl_nil, hacc]
    rfl
  | n :: ns, acc => by
    rw [map_cons, map_cons, foldl_cons, checkedFold]
    have hn : numericAsI64 num.toArith (.long n) = .ok n := rfl
    simp only [hn, bind, Except.bind]
    cases hsum : toI64? (combine acc.toInt n.toInt) with
    | some s =>
      rw [toI64?_eq_some] at hsum
      rw [← hsum]
      exact checkedFold_long num combine ns s
    | none =>
      have hrest : accumulate numericAsBigInt combine (combine acc.toInt n.toInt) (ns.map .long) =
          .ok ((ns.map Int64.toInt).foldl combine (combine acc.toInt n.toInt)) := by
        rw [accumulate_ok (g := integer), foldl_map, foldl_map]
        · rfl
        · intro v hv
          obtain ⟨m, -, rfl⟩ := mem_map.mp hv
          rfl
      simp only [hrest]
      rfl

theorem foldl_integer (hop : op.Lifts) : ∀ (rest : List Value) (a : Int),
    (∀ v ∈ rest, (integer v : ℚ) = number v) →
    ((rest.foldl (fun acc v => op.integer acc (integer v)) a : Int) : ℚ) =
      rest.foldl (fun acc v => op.ratio acc (number v)) (a : ℚ)
  | [], _, _ => rfl
  | v :: rest, a, h => by
    rw [forall_mem_cons] at h
    rw [foldl_cons, foldl_cons, foldl_integer hop rest _ h.2, hop, h.1]

/-- **The operators on exact numbers** compute with rational numbers. -/
theorem foldNumbers_exact (num : Tower) (hop : op.Lifts) {first : Value}
    {rest : List Value} {cat : NumCat} (hfirst : Exact first) (hrest : ∀ v ∈ rest, Exact v)
    (hcat : cat.rank ≤ 2) (hfirst' : (exactCat first).rank ≤ cat.rank)
    (hrest' : ∀ v ∈ rest, (exactCat v).rank ≤ cat.rank) :
    Yields (foldNumbers num op first rest cat)
      (rest.foldl (fun acc v => op.ratio acc (number v)) (number first)) := by
  cases cat with
  | double | bigDecimal => exact absurd hcat (by decide)
  | ratio =>
    refine ⟨_, ?_, numberOf_simplifyRatioWith _ false⟩
    rw [foldNumbers, hfirst.numericAsRatio]
    simp only [bind, Except.bind, accumulate_ok fun v hv => (hrest v hv).numericAsRatio]
    rfl
  | bigInt =>
    have hconvert := fun v hv => (hrest v hv).numericAsBigInt (hrest' v hv)
    have hinit := hfirst.numericAsBigInt hfirst'
    refine ⟨.bigInt (rest.foldl (fun acc v => op.integer acc (integer v)) (integer first)), ?_, ?_⟩
    · rw [foldNumbers, hinit.1]
      simp only [bind, Except.bind, accumulate_ok fun v hv => (hconvert v hv).1]
      rfl
    · rw [numberOf, foldl_integer hop rest _ fun v hv => (hconvert v hv).2, hinit.2]
  | long =>
    obtain ⟨n, rfl⟩ := hfirst.isLong hfirst'
    obtain ⟨ns, rfl⟩ := exists_longs fun v hv => (hrest v hv).isLong (hrest' v hv)
    refine ⟨_, checkedFold_long num op.integer ns n, ?_⟩
    have hcast := foldl_integer hop (ns.map .long) n.toInt
      (by simp [integer, number, integerOf, numberOf])
    rw [numberOf_simplifyBigInt, foldl_map]
    rw [foldl_map] at hcast
    exact congrArg some hcast

section Exactness

variable (num : Tower)

variable {args rest : List Value}

theorem builtinAdd_exact (h : ∀ v ∈ args, Exact v) :
    Yields (builtinAdd num args) (args.foldl (fun acc v => acc + number v) 0) := by
  obtain ⟨cat, hwidest, hcat, hall⟩ := widestCategory_exact h
  have hfold := foldNumbers_exact num (plus_lifts num) (.long 0) h hcat (Nat.zero_le _) hall
  rw [builtinAdd, hwidest]
  exact hfold

theorem builtinMul_exact (h : ∀ v ∈ args, Exact v) :
    Yields (builtinMul num args) (args.foldl (fun acc v => acc * number v) 1) := by
  obtain ⟨cat, hwidest, hcat, hall⟩ := widestCategory_exact h
  have hfold := foldNumbers_exact num (times_lifts num) (.long 1) h hcat (Nat.zero_le _) hall
  rw [builtinMul, hwidest]
  exact hfold

theorem negate_exact {x : Value} (hx : Exact x) : Yields (negate x) (-number x) := by
  cases hx with
  | long n =>
    have hsimplify : negate (.long n) = .ok (simplifyBigInt (-n.toInt)) := by
      rw [negate, simplifyBigInt]
      cases toI64? (-n.toInt) <;> rfl
    refine ⟨_, hsimplify, ?_⟩
    rw [numberOf_simplifyBigInt, Int.cast_neg]
    rfl
  | bigInt n =>
    refine ⟨_, rfl, ?_⟩
    rw [numberOf_simplifyBigInt, Int.cast_neg]
    rfl
  | ratio r => exact ⟨_, rfl, numberOf_simplifyRatioWith _ false⟩

theorem builtinSub_exact {x y : Value} (h : ∀ v ∈ x :: y :: rest, Exact v) :
    Yields (builtinSub num (x :: y :: rest))
      ((y :: rest).foldl (fun acc v => acc - number v) (number x)) := by
  obtain ⟨cat, hwidest, hcat, hall⟩ := widestCategory_exact h
  rw [forall_mem_cons] at h hall
  have hfold := foldNumbers_exact num (minus_lifts num) h.1 h.2 hcat hall.1 hall.2
  have hsub : builtinSub num (x :: y :: rest) =
      (widestCategory (x :: y :: rest)).bind (foldNumbers num (minus num) x (y :: rest)) := rfl
  rw [hsub, hwidest]
  exact hfold

theorem divideFold_exact : ∀ {divisors : List Value} (q : ℚ), (∀ v ∈ divisors, Exact v) →
    divideFold numericAsRatio (fun d => decide (d = 0)) (· / ·) q divisors =
      if ∀ v ∈ divisors, number v ≠ 0 then .ok (divisors.foldl (fun acc v => acc / number v) q)
      else other "divide by zero"
  | [], q, _ => by simp [divideFold, pure, Except.pure]
  | v :: divisors, q, h => by
    rw [forall_mem_cons] at h
    have ih := divideFold_exact (q / number v) h.2
    rw [divideFold, foldlM_cons, h.1.numericAsRatio]
    by_cases hv : number v = 0
    · simp [bind, Except.bind, hv, other]
    · simp only [bind, Except.bind, hv, decide_false, Bool.false_eq_true, if_false, forall_mem_cons,
        ne_eq, not_false_eq_true, true_and, foldl_cons]
      exact ih

theorem divide_exact {first : Value} (h : ∀ v ∈ first :: rest, Exact v) :
    ((∀ v ∈ rest, number v ≠ 0) →
      Yields (divide num first rest) (rest.foldl (fun acc v => acc / number v) (number first))) ∧
    ((∃ v ∈ rest, number v = 0) → divide num first rest = other "divide by zero") := by
  obtain ⟨cat, hwidest, hcat, -⟩ := widestCategory_exact h
  rw [forall_mem_cons] at h
  have hdivide : divide num first rest = do
      let result ← divideFold numericAsRatio (fun d => decide (d = 0)) (· / ·) (number first) rest
      return simplifyRatioWith result (cat == .bigInt) := by
    rw [divide, hwidest, h.1.numericAsRatio]
    cases cat with
    | double | bigDecimal => exact absurd hcat (by decide)
    | _ => rfl
  rw [hdivide, divideFold_exact _ h.2]
  constructor
  · intro hnonzero
    rw [if_pos hnonzero]
    exact ⟨_, rfl, numberOf_simplifyRatioWith _ _⟩
  · rintro ⟨v, hv, hzero⟩
    rw [if_neg fun hnonzero => hnonzero v hv hzero]
    rfl

end Exactness

end Clojurust.Builtins
