import Clojurust.Builtins.Promotion
import Clojurust.Builtins.Remainder
import Clojurust.Ir.Fold

/-!
# Arithmetic in the two tiers

A call of `+`, `-`, `*`, `/`, `rem`, `mod`, `=`, `<`, `>`, `<=` or `>=` on integers and ratios, in the
tree-walker (`crates/cljrs-builtins/src/builtins.rs`) and in the IR (`builtin_arith` and
`builtin_compare` of `crates/cljrs-eval/src/ir_interp.rs`). The code of the IR is that of a function whose
parameters are the operands, as `lower_call` makes it.

Left out are operands that are written in the call: `lower_form` has no constants for big integers and
ratios and makes other numbers of them. So are doubles and decimals, shadowed names of the operators, and
the compiled tier.

* `ArithForm` — the calls; `mod` is lowered to the known function of `rem`;
* `Agree` — the same number or truth value, or two answers that fail alike;
* `Fits`, `Divides`, `Aligned` — the operands on which arithmetic agrees;
* `arithmetic_tiers_iff` — the code returns what the builtin returns exactly on these.
-/

namespace Clojurust.Ir

open List
open Builtins
open IntDivision

/-! ## Calls and answers -/

inductive ArithForm where
  | known (fn : KnownFn)
  | mod
  deriving DecidableEq

namespace ArithForm

/-- `resolve_known_fn` on the symbol. -/
def knownFn : ArithForm → KnownFn
  | known fn => fn
  | mod => .rem

/-- The builtin that the tree-walker calls. -/
def builtin (num : Tower) (checkOverflow : Bool) : ArithForm → List Value → Answer
  | known fn => callNative num fn
  | mod => withTwo (builtinMod num.toArith checkOverflow)

/-- `rem` and `mod` have two operands. -/
def Takes (form : ArithForm) (arity : Nat) : Prop := form.knownFn = .rem → arity = 2

end ArithForm

/-- The same number or truth value, two errors, or two panics. -/
inductive Agree : Answer → Answer → Prop
  | number {v w : Value} {q : ℚ} (hv : numberOf v = some q) (hw : numberOf w = some q) :
      Agree (.ok v) (.ok w)
  | bool (b : Bool) : Agree (.ok (.bool b)) (.ok (.bool b))
  | error (e e' : ValueError) : Agree (.error (.error e)) (.error (.error e'))
  | panic (m m' : String) : Agree (.error (.panic m)) (.error (.panic m'))

/-- A call of the function ends with the answer. -/
def Returns (num : Tower) (f : IrFunction (Inst KnownFn)) (args : List Value) (r : Answer) : Prop :=
  ∃ k, ∀ n, interpret (knownHost (dispatchKnownFn num)) f args (n + k) = (ofAnswer r).next

variable {r s : Answer}

theorem agree_congr {r' : Answer} (h : ofAnswer r = ofAnswer r') : Agree r s ↔ Agree r' s := by
  rcases r with (e | m) | v <;> rcases r' with (e' | m') | v' <;> simp only [ofAnswer] at h
  all_goals cases h
  · simp
  · exact ⟨fun h => by cases h; exact .panic _ _, fun h => by cases h; exact .panic _ _⟩
  · exact Iff.rfl

theorem Returns.agree_iff {num : Tower} {f : IrFunction (Inst KnownFn)} {args : List Value}
    {r' : Answer} (h : Returns num f args r) (h' : Returns num f args r') :
    Agree r s ↔ Agree r' s := by
  obtain ⟨k, hk⟩ := h
  obtain ⟨k', hk'⟩ := h'
  have hnext := hk k'
  rw [Nat.add_comm, hk' k] at hnext
  exact agree_congr (ofAnswer_next_inj hnext.symm)

theorem agree_yields {q : ℚ} (h : Yields s q) : Agree r s ↔ Yields r q := by
  obtain ⟨w, rfl, hw⟩ := h
  constructor
  · rintro (⟨hv, hw'⟩ | b)
    · obtain rfl := Option.some.inj (hw'.symm.trans hw)
      exact ⟨_, rfl, hv⟩
    · cases hw
  · rintro ⟨v, rfl, hv⟩
    exact .number hv hw

/-! ## Sums, differences and products -/

section Sums

variable (num : Tower) (fn : KnownFn) (op : Operator)

/-- Two 64-bit integers whose result is none. -/
def Overflows (a b : Value) : Prop :=
  ∃ m n : Int64, a = .long m ∧ b = .long n ∧ toI64? (op.integer m.toInt n.toInt) = none

/-- No step of the fold combines two 64-bit integers into one that is too large. -/
def Fits : Value → List Value → Prop
  | _, [] => True
  | acc, x :: rest => ¬ Overflows op acc x ∧ ∀ v, callNative num fn [acc, x] = .ok v → Fits v rest

/-- A known function that combines two exact numbers. -/
@[grind cases]
structure Combines : Prop where
  long : ∀ m n : Int64, dispatchKnownFn num fn [.long m, .long n] =
    checked (op.integer m.toInt n.toInt)
  arith : dispatchKnownFn num fn = builtinArith num fn
  nativeLong : ∀ (m n l : Int64), toI64? (op.integer m.toInt n.toInt) = some l →
    callNative num fn [.long m, .long n] = .ok (.long l)
  yields : ∀ a b, Exact a → Exact b →
    Yields (callNative num fn [a, b]) (op.ratio (number a) (number b))

variable {num fn op}

variable {a b : Value}

theorem builtinArith_native (hlong : ∀ m n, a = .long m → b ≠ .long n) (ha : Exact a)
    (hb : Exact b) : builtinArith num fn [a, b] = callNative num fn [a, b] := by
  cases ha with
  | long m =>
    cases hb with
    | long n => exact absurd rfl (hlong m n rfl)
    | _ => rfl
  | _ => cases hb <;> rfl

theorem Combines.step (h : Combines num fn op) (ha : Exact a) (hb : Exact b)
    (hfits : ¬ Overflows op a b) : ∃ v, dispatchKnownFn num fn [a, b] = .ok v ∧
      callNative num fn [a, b] = .ok v ∧ numberOf v = some (op.ratio (number a) (number b)) := by
  obtain ⟨v, hv, hnumber⟩ := h.yields a b ha hb
  rcases long_or_mixed a b with ⟨m, n, rfl, rfl⟩ | hmixed
  · cases hsum : toI64? (op.integer m.toInt n.toInt) with
    | none => exact absurd ⟨m, n, rfl, rfl, hsum⟩ hfits
    | some l =>
      have hnative := h.nativeLong m n l hsum
      obtain rfl := Except.ok.inj (hv.symm.trans hnative)
      exact ⟨_, by rw [h.long, checked, hsum], hnative, hnumber⟩
  · exact ⟨v, by rw [h.arith, builtinArith_native hmixed ha hb, hv], hv, hnumber⟩

theorem Combines.overflow (h : Combines num fn op) (hover : Overflows op a b) :
    dispatchKnownFn num fn [a, b] = other "integer overflow" := by
  obtain ⟨m, n, rfl, rfl, hsum⟩ := hover
  rw [h.long, checked, hsum]

theorem Combines.fold (h : Combines num fn op) : ∀ {rest : List Value} {acc : Value}, Exact acc →
    (∀ v ∈ rest, Exact v) →
    (Fits num fn op acc rest → Yields (rest.foldlM (fun acc y => dispatchKnownFn num fn [acc, y]) acc)
      (rest.foldl (fun q y => op.ratio q (number y)) (number acc))) ∧
    (¬ Fits num fn op acc rest →
      ∃ e, rest.foldlM (fun acc y => dispatchKnownFn num fn [acc, y]) acc = .error (.error e))
  | [], acc, hacc, _ => ⟨fun _ => ⟨acc, rfl, hacc.numberOf⟩, fun hfits => absurd trivial hfits⟩
  | x :: rest, acc, hacc, hrest => by
    rw [forall_mem_cons] at hrest
    rw [foldlM_cons, foldl_cons]
    by_cases hover : Overflows op acc x
    · rw [h.overflow hover]
      exact ⟨fun hfits => absurd hover hfits.1, fun _ => ⟨_, rfl⟩⟩
    · obtain ⟨v, hdispatch, hnative, hnumber⟩ := h.step hacc hrest.1 hover
      obtain ⟨hv, hvalue⟩ := exact_of_numberOf hnumber
      have ih := h.fold hv hrest.2
      have hiff : Fits num fn op acc (x :: rest) ↔ Fits num fn op v rest := by
        refine ⟨fun hfits => hfits.2 v hnative, fun hfits => ⟨hover, fun w hw => ?_⟩⟩
        obtain rfl := Except.ok.inj (hnative.symm.trans hw)
        exact hfits
      rw [hdispatch, hiff, ← hvalue]
      exact ih

theorem Combines.agree_iff (h : Combines num fn op) {rest : List Value} {acc : Value} (hacc : Exact acc)
    (hrest : ∀ v ∈ rest, Exact v)
    (hs : Yields s (rest.foldl (fun q y => op.ratio q (number y)) (number acc))) :
    Agree (rest.foldlM (fun acc y => dispatchKnownFn num fn [acc, y]) acc) s ↔
      Fits num fn op acc rest := by
  obtain ⟨hfits, hover⟩ := h.fold hacc hrest
  rw [agree_yields hs]
  refine ⟨fun hyields => ?_, hfits⟩
  by_contra hnot
  obtain ⟨e, he⟩ := hover hnot
  obtain ⟨v, hv, -⟩ := hyields
  cases he.symm.trans hv

theorem checkedFold_fits (combine : Int → Int → Int) (init : Int64) (ns : List Int64) {l : Int64}
    (h : toI64? ((ns.map Int64.toInt).foldl combine init.toInt) = some l) :
    checkedFold num combine init (ns.map .long) = .ok (.long l) := by
  rw [checkedFold_long, simplifyBigInt, h]

variable (num)

theorem combines_add : Combines num .add (plus num) where
  long _ _ := rfl
  arith := rfl
  nativeLong m n l h := by
    refine checkedFold_fits (· + ·) 0 [m, n] ?_
    rw [← h]
    exact congrArg (fun k => toI64? (k + n.toInt)) (Int.zero_add m.toInt)
  yields a b ha hb := by
    have hboth : ∀ v ∈ [a, b], Exact v := by simp [ha, hb]
    have hsum := builtinAdd_exact num hboth
    rw [foldl_cons, zero_add] at hsum
    exact hsum

theorem combines_mul : Combines num .mul (times num) where
  long _ _ := rfl
  arith := rfl
  nativeLong m n l h := by
    refine checkedFold_fits (· * ·) 1 [m, n] ?_
    rw [← h]
    exact congrArg (fun k => toI64? (k * n.toInt)) (Int.one_mul m.toInt)
  yields a b ha hb := by
    have hboth : ∀ v ∈ [a, b], Exact v := by simp [ha, hb]
    have hproduct := builtinMul_exact num hboth
    rw [foldl_cons, one_mul] at hproduct
    exact hproduct

theorem combines_sub : Combines num .sub (minus num) where
  long _ _ := rfl
  arith := rfl
  nativeLong m n l h := checkedFold_fits (· - ·) m [n] h
  yields _ _ ha hb := builtinSub_exact num (by simp [ha, hb])

end Sums

/-! ## Quotients -/

section Quotients

variable (num : Tower)

/-- Two 64-bit integers with an integer quotient, or other numbers. -/
def Even (a b : Value) : Prop := ∀ m n : Int64, a = .long m → b = .long n → n.toInt ∣ m.toInt

/-- The quotients of 64-bit integers along the fold are integers that fit, up to the first divisor
that is zero; before a zero they need not be integers. -/
def Divides : Value → List Value → Prop
  | _, [] => True
  | acc, x :: rest => number x = 0 ∨ QuotientFits acc x ∧
      ((∃ d ∈ rest, number d = 0) ∨ Even acc x) ∧
      ∀ v, dispatchKnownFn num .div [acc, x] = .ok v → Divides v rest

variable {a b : Value}

theorem div_zero (ha : Exact a) (hb : Exact b) (hzero : number b = 0) :
    ∃ e, dispatchKnownFn num .div [a, b] = .error (.error e) := by
  rcases long_or_mixed a b with ⟨m, n, rfl, rfl⟩ | hmixed
  · obtain rfl : n = 0 := by
      refine Int64.toInt_inj.mp ?_
      exact Int.cast_eq_zero.mp hzero
    exact ⟨_, rfl⟩
  · have hnative : dispatchKnownFn num .div [a, b] = divide num a [b] :=
      builtinArith_native hmixed ha hb
    rw [hnative, (divide_exact num (by simp [ha, hb])).2 (by simp [hzero])]
    exact ⟨_, rfl⟩

theorem div_panic (hfits : ¬ QuotientFits a b) :
    ∃ m, dispatchKnownFn num .div [a, b] = .error (.panic m) := by
  obtain ⟨rfl, rfl⟩ := not_not.mp hfits
  exact ⟨_, rfl⟩

theorem div_step (ha : Exact a) (hb : Exact b) (hzero : number b ≠ 0) (hfits : QuotientFits a b) :
    ∃ v, dispatchKnownFn num .div [a, b] = .ok v ∧ Exact v ∧
      (Even a b → number v = number a / number b) ∧
      (¬ Even a b → |number v| < |number a / number b|) := by
  rcases long_or_mixed a b with ⟨m, n, rfl, rfl⟩ | hmixed
  · have hn : n ≠ 0 := by
      rintro rfl
      exact hzero rfl
    obtain ⟨q, hq, hquot⟩ := i64Div_ok (quotientFits_long.mp hfits)
    have hdispatch : dispatchKnownFn num .div [.long m, .long n] = .ok (.long q) := by
      show (if n = 0 then _ else do return Value.long (← i64Div m n)) = _
      rw [if_neg hn, hq]
      rfl
    have hvalue : number (.long q) = ((m.toInt.tdiv n.toInt : Int) : ℚ) := congrArg Int.cast hquot
    have heven : Even (.long m) (.long n) ↔ n.toInt ∣ m.toInt := by simp [Even]
    refine ⟨.long q, hdispatch, .long q, ?_, ?_⟩
    · rw [heven, hvalue]
      exact IntDivision.cast_tdiv_of_dvd (toInt_ne_zero hn)
    · rw [heven, hvalue]
      exact IntDivision.abs_tdiv_lt (toInt_ne_zero hn)
  · have hnative : dispatchKnownFn num .div [a, b] = divide num a [b] :=
      builtinArith_native hmixed ha hb
    have heven : Even a b := fun m n hm hn => absurd hn (hmixed m n hm)
    have hboth : ∀ v ∈ [a, b], Exact v := by simp [ha, hb]
    obtain ⟨v, hv, hnumber⟩ := (divide_exact num hboth).1 (by simpa using hzero)
    obtain ⟨hexact, hvalue⟩ := exact_of_numberOf hnumber
    grind

variable {num}

/-- Divide by one number after the other. -/
def quotient (q : ℚ) (divisors : List Value) : ℚ := divisors.foldl (fun acc v => acc / number v) q

theorem quotient_eq_mul : ∀ (divisors : List Value) (q : ℚ),
    quotient q divisors = q * quotient 1 divisors
  | [], q => (mul_one q).symm
  | v :: divisors, q => by
    show quotient (q / number v) divisors = q * quotient (1 / number v) divisors
    rw [quotient_eq_mul divisors (q / number v), quotient_eq_mul divisors (1 / number v),
      ← mul_assoc, mul_one_div]

theorem quotient_ne_zero : ∀ {divisors : List Value}, (∀ v ∈ divisors, number v ≠ 0) →
    quotient 1 divisors ≠ 0
  | [], _ => one_ne_zero
  | v :: divisors, h => by
    rw [forall_mem_cons] at h
    show quotient (1 / number v) divisors ≠ 0
    rw [quotient_eq_mul]
    exact mul_ne_zero (one_div_ne_zero h.1) (quotient_ne_zero h.2)

theorem abs_quotient_lt {divisors : List Value} (h : ∀ v ∈ divisors, number v ≠ 0) {q q' : ℚ}
    (hlt : |q| < |q'|) : |quotient q divisors| < |quotient q' divisors| := by
  rw [quotient_eq_mul divisors q, quotient_eq_mul divisors q', abs_mul, abs_mul]
  exact mul_lt_mul_of_pos_right hlt (abs_pos.mpr (quotient_ne_zero h))

/-- The fold over the divisors, in the interpreter. -/
def divFold (num : Tower) (acc : Value) (rest : List Value) : Answer :=
  rest.foldlM (fun acc y => dispatchKnownFn num .div [acc, y]) acc

theorem divFold_cons (acc x : Value) (rest : List Value) : divFold num acc (x :: rest) =
    (dispatchKnownFn num .div [acc, x]).bind fun v => divFold num v rest := foldlM_cons

variable {acc : Value} {rest : List Value}

theorem divides_cons {x v : Value} (hx : number x ≠ 0)
    (hfits : QuotientFits acc x) (hv : dispatchKnownFn num .div [acc, x] = .ok v) :
    Divides num acc (x :: rest) ↔
      ((∃ d ∈ rest, number d = 0) ∨ Even acc x) ∧ Divides num v rest := by
  constructor
  · rintro (hzero | ⟨-, heven, hrest⟩)
    all_goals grind
  · rintro ⟨heven, hrest⟩
    refine .inr ⟨hfits, heven, fun w hw => ?_⟩
    grind

theorem not_divides_cons {x : Value} (hx : number x ≠ 0)
    (hfits : ¬ QuotientFits acc x) : ¬ Divides num acc (x :: rest) := by
  rintro (hzero | ⟨hfits', -⟩)
  all_goals grind

/-- The fold panics at a quotient that does not fit, or fails at a zero, or its result is at most the
quotient, and that exactly if nothing is truncated. -/
theorem divFold_cases : ∀ {rest : List Value} {acc : Value}, Exact acc → (∀ v ∈ rest, Exact v) →
    (∃ m, divFold num acc rest = .error (.panic m) ∧ ¬ Divides num acc rest) ∨
    ((∃ v ∈ rest, number v = 0) ∧ Divides num acc rest ∧
      ∃ e, divFold num acc rest = .error (.error e)) ∨
    ((∀ v ∈ rest, number v ≠ 0) ∧ ∃ w, divFold num acc rest = .ok w ∧ Exact w ∧
      |number w| ≤ |quotient (number acc) rest| ∧
      (Divides num acc rest ↔ number w = quotient (number acc) rest))
  | [], acc, hacc, _ =>
    .inr (.inr ⟨forall_mem_nil _, acc, rfl, hacc, le_refl _, iff_of_true trivial rfl⟩)
  | x :: rest, acc, hacc, hrest => by
    rw [forall_mem_cons] at hrest
    by_cases hx : number x = 0
    · obtain ⟨e, he⟩ := div_zero num hacc hrest.1 hx
      exact .inr (.inl ⟨⟨x, .head _, hx⟩, .inl hx, e, by rw [divFold_cons, he]; rfl⟩)
    by_cases hfits : QuotientFits acc x
    · obtain ⟨v, hv, hexact, heven, hodd⟩ := div_step num hacc hrest.1 hx hfits
      have hfold : divFold num acc (x :: rest) = divFold num v rest := by
        rw [divFold_cons, hv]
        rfl
      rw [hfold, divides_cons hx hfits hv]
      rcases divFold_cases hexact hrest.2 with
        ⟨m, hm, hnot⟩ | ⟨⟨d, hd, hzero⟩, hdivides, he⟩ | ⟨hnonzero, w, hw, hexact', hle, hiff⟩
      · exact .inl ⟨m, hm, fun h => hnot h.2⟩
      · exact .inr (.inl ⟨⟨d, .tail _ hd, hzero⟩, ⟨.inl ⟨d, hd, hzero⟩, hdivides⟩, he⟩)
      · refine .inr (.inr ⟨forall_mem_cons.mpr ⟨hx, hnonzero⟩, w, hw, hexact', ?_⟩)
        have hnozero : ¬ ∃ d ∈ rest, number d = 0 := fun ⟨d, hd, hzero⟩ => hnonzero d hd hzero
        show |number w| ≤ |quotient (number acc / number x) rest| ∧
          (_ ↔ number w = quotient (number acc / number x) rest)
        rw [or_iff_right hnozero]
        by_cases hacc : Even acc x
        · rw [and_iff_right hacc, ← heven hacc]
          exact ⟨hle, hiff⟩
        · have hlt := hle.trans_lt (abs_quotient_lt hnonzero (hodd hacc))
          refine ⟨hlt.le, iff_of_false (fun h => hacc h.1) fun heq => ?_⟩
          exact absurd (congrArg abs heq) hlt.ne
    · obtain ⟨m, hm⟩ := div_panic num hfits
      exact .inl ⟨m, by rw [divFold_cons, hm]; rfl, not_divides_cons hx hfits⟩

theorem divFold_agree_iff (hacc : Exact acc) (hrest : ∀ v ∈ rest, Exact v) :
    Agree (divFold num acc rest) (divide num acc rest) ↔ Divides num acc rest := by
  have hall : ∀ v ∈ acc :: rest, Exact v := forall_mem_cons.mpr ⟨hacc, hrest⟩
  obtain ⟨hyields, herror⟩ := divide_exact num hall
  rcases divFold_cases hacc hrest with
    ⟨m, hm, hnot⟩ | ⟨hzero, hdivides, e, he⟩ | ⟨hnonzero, w, hw, hexact, -, hiff⟩
  · refine iff_of_false ?_ hnot
    rw [hm]
    by_cases hzero : ∃ v ∈ rest, number v = 0
    · rw [herror hzero]
      exact nofun
    · push Not at hzero
      rw [agree_yields (hyields hzero)]
      rintro ⟨v, hv, -⟩
      cases hv
  · rw [he, herror hzero]
    exact iff_of_true (.error _ _) hdivides
  · rw [agree_yields (hyields hnonzero), hw, hiff]
    constructor
    · rintro ⟨v, hv, hnumber⟩
      cases hv
      exact (exact_of_numberOf hnumber).2
    · intro heq
      exact ⟨w, rfl, hexact.numberOf.trans (congrArg some heq)⟩

end Quotients

/-! ## Remainders -/

section Remainders

variable (num : Tower) (checkOverflow : Bool)

/-- The operands on which `mod` may be lowered to `rem`: those on which both fail, and those whose
remainder is the residue, if the builtin does not overflow on the way to it. -/
def ModIsRem (x y : Value) : Prop :=
  number y = 0 ∨ ¬ QuotientFits x y ∨ SumFits x y ∧ Aligned x y

theorem rem_long {m n : Int64} (hn : n ≠ 0) (hfits : QuotientFits (.long m) (.long n)) :
    ∃ r, dispatchKnownFn num .rem [.long m, .long n] = .ok (.long r) ∧
      r.toInt = m.toInt.tmod n.toInt := by
  obtain ⟨r, hr, hrem⟩ := i64Rem_ok (quotientFits_long.mp hfits)
  refine ⟨r, ?_, hrem⟩
  show (if n = 0 then _ else do return Value.long (← i64Rem m n)) = _
  rw [if_neg hn, hr]
  rfl

theorem rem_agree {x y : Value} (hx : Exact x) (hy : Exact y) :
    Agree (dispatchKnownFn num .rem [x, y]) (builtinRem num.toArith x y) := by
  rcases long_or_mixed x y with ⟨m, n, rfl, rfl⟩ | hmixed
  · by_cases hn : n = 0
    · subst hn
      exact .error _ _
    · have hrem : builtinRem num.toArith (.long m) (.long n) =
          dispatchKnownFn num .rem [.long m, .long n] := by
        show (if n = 0 then _ else do return Value.long (← i64Rem m n)) =
          if n = 0 then _ else do return Value.long (← i64Rem m n)
        rw [if_neg hn, if_neg hn]
      rw [hrem]
      by_cases hfits : QuotientFits (.long m) (.long n)
      · obtain ⟨r, hr, -⟩ := rem_long num hn hfits
        rw [hr]
        exact .number rfl rfl
      · obtain ⟨⟨⟩, ⟨⟩⟩ := not_not.mp hfits
        exact .panic _ _
  · have hnative : dispatchKnownFn num .rem [x, y] = builtinRem num.toArith x y :=
      builtinArith_native hmixed hx hy
    rw [hnative]
    obtain ⟨hzero, hyields⟩ := builtinRem_exact num.toArith hx hy hmixed
    by_cases hy0 : number y = 0
    · rw [hzero hy0]
      exact .error _ _
    · obtain ⟨v, hv, hnumber⟩ := hyields hy0
      rw [hv]
      exact .number hnumber hnumber

theorem agree_long {r t : Int64} : Agree (.ok (.long r)) (.ok (.long t)) ↔ r.toInt = t.toInt := by
  have hnumber : Yields (.ok (.long t)) ((t.toInt : Int) : ℚ) := ⟨_, rfl, rfl⟩
  rw [agree_yields hnumber]
  constructor
  · rintro ⟨v, hv, hvalue⟩
    cases hv
    exact Int.cast_injective (Option.some.inj hvalue)
  · intro h
    exact ⟨_, rfl, congrArg (fun n : Int => some (n : ℚ)) h⟩

theorem mod_long_agree_iff {m n : Int64} (hn : n ≠ 0) (hfits : QuotientFits (.long m) (.long n)) :
    Agree (dispatchKnownFn num .rem [.long m, .long n])
        (builtinMod num.toArith checkOverflow (.long m) (.long n)) ↔
      SumFits (.long m) (.long n) ∧ Aligned (.long m) (.long n) := by
  obtain ⟨r, hr, hrem⟩ := rem_long num hn hfits
  have hfits' := quotientFits_long.mp hfits
  have hn' := toInt_ne_zero hn
  have hresidue := floored_residue (a := m.toInt) hn'
  have hmod : builtinMod num.toArith checkOverflow (.long m) (.long n) =
      (i64Mod checkOverflow m n).map .long := remainder_long _ hn
  rw [hr, hmod]
  by_cases hsum : SumFits (.long m) (.long n)
  · obtain ⟨hlow, hhigh⟩ := sumFits_long.mp hsum
    obtain ⟨t, ht, hfloored⟩ := i64Mod_ok checkOverflow hn hfits' hlow hhigh
    rw [and_iff_right hsum, ← ratioRem_eq_ratioMod_iff (Int.cast_ne_zero.mpr hn'), ht]
    show Agree (.ok (.long r)) (.ok (.long t)) ↔
      ratioRem (m.toInt : ℚ) (n.toInt : ℚ) = ratioMod (m.toInt : ℚ) (n.toInt : ℚ)
    rw [agree_long, hrem, hfloored.unique hresidue, ratioRem_intCast _ hn', ratioMod_intCast _ hn']
    exact Int.cast_inj.symm
  · -- the sum overflows only if the remainder is the residue
    refine iff_of_false ?_ fun h => hsum h.1
    have hover : ¬ (-2 ^ 63 ≤ m.toInt.tmod n.toInt + n.toInt ∧
        m.toInt.tmod n.toInt + n.toInt < 2 ^ 63) := fun h => hsum (sumFits_long.mpr h)
    cases ht : i64Mod checkOverflow m n with
    | error e => rintro ⟨⟩
    | ok t =>
      intro hagree
      have hwrong := i64Mod_wrong hn hfits' hover ht
      rw [← agree_long.mp hagree, hrem] at hwrong
      refine hwrong ?_
      rw [if_neg] at hresidue
      · exact hresidue
      · have := n.le_toInt
        have := n.toInt_lt
        grind

theorem mod_agree_iff {x y : Value} (hx : Exact x) (hy : Exact y) :
    Agree (dispatchKnownFn num .rem [x, y]) (builtinMod num.toArith checkOverflow x y) ↔
      ModIsRem x y := by
  rcases long_or_mixed x y with ⟨m, n, rfl, rfl⟩ | hmixed
  · by_cases hn : n = 0
    · subst hn
      exact iff_of_true (.error _ _) (.inl rfl)
    · have hn' : number (.long n) ≠ 0 := Int.cast_ne_zero.mpr (toInt_ne_zero hn)
      rw [ModIsRem, or_iff_right hn']
      by_cases hfits : QuotientFits (.long m) (.long n)
      · rw [or_iff_right (not_not.mpr hfits)]
        exact mod_long_agree_iff num checkOverflow hn hfits
      · refine iff_of_true ?_ (.inl hfits)
        obtain ⟨⟨⟩, ⟨⟩⟩ := not_not.mp hfits
        exact .panic _ _
  · have hnative : dispatchKnownFn num .rem [x, y] = builtinRem num.toArith x y :=
      builtinArith_native hmixed hx hy
    obtain ⟨hremZero, hrem⟩ := builtinRem_exact num.toArith hx hy hmixed
    obtain ⟨hmodZero, hmod⟩ := builtinMod_exact num.toArith checkOverflow hx hy hmixed
    have hfits : QuotientFits x y := fun h => hmixed _ _ h.1 h.2
    have hsum : SumFits x y := fun m n hm hn => absurd hn (hmixed m n hm)
    rw [hnative, ModIsRem, or_iff_right (not_not.mpr hfits), and_iff_right hsum]
    by_cases hzero : number y = 0
    · rw [hremZero hzero, hmodZero hzero]
      exact iff_of_true (.error _ _) (.inl hzero)
    · rw [or_iff_right hzero, agree_yields (hmod hzero), ← ratioRem_eq_ratioMod_iff hzero]
      obtain ⟨v, hv, hvalue⟩ := hrem hzero
      constructor
      · rintro ⟨w, hw, hvalue'⟩
        grind
      · grind

end Remainders

/-! ## Comparisons -/

section Comparisons

variable (num : Tower)

variable {holds : Value → Value → Builtins.Outcome Bool} {fn : KnownFn}

theorem chainAnswer_eq_chain {compare : Value → Value → Answer}
    : ∀ {rest : List Value} {x y : Value},
    (∀ v ∈ x :: y :: rest, ∀ w ∈ x :: y :: rest, compare v w = (holds v w).map .bool) →
    chainAnswer compare (x :: y :: rest) = chain holds (x :: y :: rest)
  | [], x, y, h => by
    rw [chainAnswer, h x (by simp) y (by simp), chain]
    cases holds x y with
    | error e => rfl
    | ok b => cases b <;> rfl
  | z :: rest, x, y, h => by
    have ih := chainAnswer_eq_chain fun v hv w hw =>
      h v (.tail _ hv) w (.tail _ hw)
    rw [chainAnswer, h x (by simp) y (by simp), chain, ih]
    cases holds x y with
    | error e => rfl
    | ok b => cases b <;> rfl

theorem chain_bool : ∀ {args : List Value},
    (∀ v ∈ args, ∀ w ∈ args, ∃ b, holds v w = .ok b) → ∃ b, chain holds args = .ok (.bool b)
  | [], _ | [_], _ => ⟨true, rfl⟩
  | x :: y :: rest, h => by
    obtain ⟨b, hb⟩ := h x (by simp) y (by simp)
    rw [chain, hb]
    cases b with
    | false => exact ⟨false, rfl⟩
    | true =>
      refine chain_bool fun v hv w hw => ?_
      grind

/-- A test that is made on neighbours, and the answer on exact numbers. -/
@[grind cases]
structure Tests (fn : KnownFn) (holds : Value → Value → Builtins.Outcome Bool) : Prop where
  native : ∀ args, callNative num fn args = chain holds args
  exact : ∀ x y, Exact x → Exact y →
    ∃ b, holds x y = .ok b ∧ dispatchKnownFn num fn [x, y] = .ok (.bool b)

variable {num}

theorem tests_of_compares (hfn : isCompare fn = true)
    (hnative : ∀ args, callNative num fn args = chain holds args)
    (hholds : ∀ x y, Exact x → Exact y →
      holds x y = .ok (compares fn (some (compare (number x) (number y))))) : Tests num fn holds := by
  refine ⟨hnative, fun x y hx hy => ⟨_, hholds x y hx hy, ?_⟩⟩
  have hdispatch : dispatchKnownFn num fn [x, y] = builtinCompare num fn [x, y] := by
    cases fn <;> first | rfl | cases hfn
  rw [hdispatch]
  rcases long_or_mixed x y with ⟨m, n, rfl, rfl⟩ | hmixed
  · have hcast : compare (number (.long m)) (number (.long n)) = compare m.toInt n.toInt :=
      compare_intCast m.toInt n.toInt
    rw [hcast]
    rfl
  · have hcall : builtinCompare num fn [x, y] = callNative num fn [x, y] := by
      have hif : callNative num fn [x, y] =
          if isCompare fn then callNative num fn [x, y] else .ok (.bool false) := (if_pos hfn).symm
      rw [hif]
      cases hx with
      | long m =>
        cases hy with
        | long n => exact absurd rfl (hmixed m n rfl)
        | _ => rfl
      | _ => cases hy <;> rfl
    rw [hcall, hnative, chain, hholds x y hx hy]
    cases compares fn (some (compare (number x) (number y))) <;> rfl

theorem tests_of_isComparison (num : Tower) (hfn : isComparison fn = true) :
    ∃ holds, Tests num fn holds := by
  cases fn with
  | eq => exact ⟨_, fun _ => rfl, fun x y _ _ => ⟨_, rfl, rfl⟩⟩
  | lt | gt | gte =>
    refine ⟨_, tests_of_compares rfl (fun _ => rfl) fun x y hx hy => ?_⟩
    rw [numCompare_exact num hx hy]
    rfl
  | lte =>
    refine ⟨_, tests_of_compares rfl (fun _ => rfl) fun x y hx hy => ?_⟩
    have hnan : ∀ {v : Value}, Exact v → doubleIs F64.isNaN v = false := by
      rintro v ⟨⟩ <;> rfl
    rw [hnan hx, hnan hy, numCompare_exact num hx hy]
    rfl
  | _ => cases hfn

theorem comparison_agree (hfn : isComparison fn = true) {x : Value} {rest : List Value}
    (hargs : ∀ v ∈ x :: rest, Exact v) :
    Agree (foldAnswer num fn (x :: rest)) (callNative num fn (x :: rest)) := by
  obtain ⟨holds, htests⟩ := tests_of_isComparison num hfn
  obtain ⟨b, hb⟩ := chain_bool fun v hv w hw =>
    (htests.exact v w (hargs v hv) (hargs w hw)).imp fun _ h => h.1
  have hfold : foldAnswer num fn (x :: rest) = chain holds (x :: rest) := by
    cases rest with
    | nil => cases fn <;> first | rfl | cases hfn
    | cons y rest =>
      have hchain : foldAnswer num fn (x :: y :: rest) =
          chainAnswer (fun x y => dispatchKnownFn num fn [x, y]) (x :: y :: rest) := by
        simp only [foldAnswer, hfn, if_true]
      rw [hchain]
      refine chainAnswer_eq_chain fun v hv w hw => ?_
      obtain ⟨b, hb, hdispatch⟩ := htests.exact v w (hargs v hv) (hargs w hw)
      rw [hb, hdispatch]
      rfl
  rw [hfold, htests.native, hb]
  exact .bool b

end Comparisons

/-! ## All calls -/

/-- The operands on which the code agrees with the builtin. -/
def ArithForm.Agreeing (num : Tower) (form : ArithForm) (args : List Value) : Prop :=
  match form with
  | known .add =>
    match args with
    | [] => True
    | x :: rest => Fits num .add (plus num) x rest
  | known .mul =>
    match args with
    | [] => True
    | x :: rest => Fits num .mul (times num) x rest
  | known .sub =>
    match args with
    | [] => True
    | [x] => Fits num .sub (minus num) (.long 0) [x]
    | x :: rest => Fits num .sub (minus num) x rest
  | known .div =>
    match args with
    | [] => True
    | [x] => Divides num (.long 1) [x]
    | x :: rest => Divides num x rest
  | known _ => True
  | mod =>
    match args with
    | [x, y] => ModIsRem x y
    | _ => True

section Calls

variable (num : Tower)

theorem foldAnswer_cons {fn : KnownFn} {x : Value} (hfn : isComparison fn = false)
    (hone : foldAnswer num fn [x] = .ok x) (rest : List Value) : foldAnswer num fn (x :: rest) =
      rest.foldlM (fun acc y => dispatchKnownFn num fn [acc, y]) x := by
  cases rest with
  | nil => exact hone
  | cons =>
    simp only [foldAnswer, hfn]
    rfl

theorem foldlM_one (fn : KnownFn) (acc x : Value) :
    [x].foldlM (fun acc y => dispatchKnownFn num fn [acc, y]) acc = dispatchKnownFn num fn [acc, x] := by
  exact bind_pure _

variable {args rest : List Value} {f : IrFunction (Inst KnownFn)}

theorem Combines.foldAnswer_agree_iff {num : Tower} {fn : KnownFn} {op : Operator} {x : Value}
    (h : Combines num fn op) (hfn : isComparison fn = false) (hone : foldAnswer num fn [x] = .ok x)
    (hargs : ∀ v ∈ x :: rest, Exact v)
    (hs : Yields s (rest.foldl (fun q y => op.ratio q (number y)) (number x))) :
    Agree (foldAnswer num fn (x :: rest)) s ↔ Fits num fn op x rest := by
  rw [forall_mem_cons] at hargs
  rw [foldAnswer_cons num hfn hone]
  exact h.agree_iff hargs.1 hargs.2 hs

theorem sub_agree_iff {x : Value} (hargs : ∀ v ∈ x :: rest, Exact v) :
    Agree (foldAnswer num .sub (x :: rest)) (callNative num .sub (x :: rest)) ↔
      ArithForm.Agreeing num (.known .sub) (x :: rest) := by
  cases rest with
  | nil =>
    have hnegate := negate_exact (hargs x (.head _))
    have hfold : foldAnswer num .sub [x] =
        [x].foldlM (fun acc y => dispatchKnownFn num .sub [acc, y]) (.long 0) :=
      (foldlM_one num .sub (.long 0) x).symm
    rw [← zero_sub] at hnegate
    rw [hfold]
    exact (combines_sub num).agree_iff (.long 0) hargs hnegate
  | cons =>
    have hsub := builtinSub_exact num hargs
    rw [forall_mem_cons] at hargs
    exact (combines_sub num).agree_iff hargs.1 hargs.2 hsub

theorem div_agree_iff {x : Value} (hargs : ∀ v ∈ x :: rest, Exact v) :
    Agree (foldAnswer num .div (x :: rest)) (callNative num .div (x :: rest)) ↔
      ArithForm.Agreeing num (.known .div) (x :: rest) := by
  cases rest with
  | nil =>
    have hfold : foldAnswer num .div [x] = divFold num (.long 1) [x] :=
      (foldlM_one num .div (.long 1) x).symm
    rw [hfold]
    exact divFold_agree_iff (.long 1) hargs
  | cons =>
    rw [forall_mem_cons] at hargs
    exact divFold_agree_iff hargs.1 hargs.2

theorem returns_foldAnswer (fn : KnownFn) (args : List Value)
    (hf : lowerArith fn args.length = .ok f) : Returns num f args (foldAnswer num fn args) := by
  refine interpret_lowerFnBody (calm_knownHost _) (fun params hlen => ?_) hf
  have hfold := emits_binaryFold num fn (params.zip args) fun e he => he
  rw [map_fst_zip hlen.le, map_snd_zip hlen.ge] at hfold
  exact hfold

theorem exists_returns_iff (h : Returns num f args r) : (∃ r, Returns num f args r ∧ Agree r s) ↔ Agree r s := by
  constructor
  · rintro ⟨r', hr', hagree⟩
    exact (hr'.agree_iff h).mp hagree
  · grind

/-- **Arithmetic in the two tiers**: on integers and ratios, the code of a call returns what the
tree-walker's builtin returns exactly when no sum, difference or product of two 64-bit integers
overflows, no quotient of two of them is truncated, and `mod` is `rem`. -/
theorem arithmetic_tiers_iff (num : Tower) (checkOverflow : Bool) (form : ArithForm)
    (args : List Value) (hargs : ∀ v ∈ args, Exact v) (hform : form.Takes args.length)
    (f : IrFunction (Inst KnownFn)) (hf : lowerArith form.knownFn args.length = .ok f) :
    (∃ r, Returns num f args r ∧ Agree r (form.builtin num checkOverflow args)) ↔
      form.Agreeing num args := by
  rw [exists_returns_iff num (returns_foldAnswer num _ args hf)]
  cases args with
  | nil =>
    cases form with
    | mod => cases hform rfl
    | known fn =>
      cases fn with
      | add | mul => exact iff_of_true (.number rfl rfl) trivial
      | _ => cases hf
  | cons x rest =>
    cases form with
    | mod =>
      match rest, hform rfl with
      | [y], _ =>
        rw [foldAnswer_two]
        exact mod_agree_iff num checkOverflow (hargs x (by simp)) (hargs y (by simp))
    | known fn =>
      cases fn with
      | add =>
        have hsum := builtinAdd_exact num hargs
        rw [foldl_cons, zero_add] at hsum
        exact (combines_add num).foldAnswer_agree_iff rfl rfl hargs hsum
      | sub => exact sub_agree_iff num hargs
      | mul =>
        have hproduct := builtinMul_exact num hargs
        rw [foldl_cons, one_mul] at hproduct
        exact (combines_mul num).foldAnswer_agree_iff rfl rfl hargs hproduct
      | div => exact div_agree_iff num hargs
      | rem =>
        match rest, hform rfl with
        | [y], _ =>
          rw [foldAnswer_two]
          exact iff_of_true (rem_agree num (hargs x (by simp)) (hargs y (by simp))) trivial
      | _ => exact iff_of_true (comparison_agree rfl hargs) trivial

/-- `((fn [a b c] (+ a b c)) 1 2N 1/2)`, with the operands passed in. -/
theorem arithmetic_tiers_sum : ∃ f, lowerArith .add 3 = .ok f ∧
    ∃ r, Returns integerTower f [.long 1, .bigInt 2, .ratio (1 / 2)] r ∧
      Agree r ((ArithForm.known .add).builtin integerTower true
        [.long 1, .bigInt 2, .ratio (1 / 2)]) := by
  refine ⟨_, rfl, ?_⟩
  refine (arithmetic_tiers_iff integerTower true (.known .add)
    [.long 1, .bigInt 2, .ratio (1 / 2)] ?_ (fun h => nomatch h) _ rfl).mpr ?_
  · simp only [forall_mem_cons, not_mem_nil, false_implies, implies_true, and_true]
    exact ⟨.long 1, .bigInt 2, .ratio _⟩
  · refine ⟨?_, fun v _ => ⟨?_, fun _ _ => trivial⟩⟩
    · rintro ⟨m, n, -, ⟨⟩, -⟩
    · rintro ⟨m, n, -, ⟨⟩, -⟩

/-- The greatest 64-bit integer plus one is an error in the interpreter; `(/ 7 2)` is `3` there, and
`(mod -7 2)` is `-1`. -/
theorem tiers_diverge : (∃ f e, lowerArith .add 2 = .ok f ∧
      Returns integerTower f [.long Int64.maxValue, .long 1] (.error (.error e)) ∧
      (ArithForm.known .add).builtin integerTower true [.long Int64.maxValue, .long 1] =
        .ok (.bigInt 9223372036854775808)) ∧
    (∃ f, lowerArith .div 2 = .ok f ∧ Returns integerTower f [.long 7, .long 2] (.ok (.long 3)) ∧
      Yields ((ArithForm.known .div).builtin integerTower true [.long 7, .long 2]) (7 / 2)) ∧
    (∃ f, lowerArith ArithForm.mod.knownFn 2 = .ok f ∧
      Returns integerTower f [.long (-7), .long 2] (.ok (.long (-1))) ∧
      ArithForm.mod.builtin integerTower true [.long (-7), .long 2] = .ok (.long 1)) := by
  refine ⟨⟨_, .other "integer overflow", rfl, ?_, rfl⟩, ⟨_, rfl, ?_, ?_⟩, ⟨_, rfl, ?_, rfl⟩⟩
  · exact returns_foldAnswer integerTower .add [.long Int64.maxValue, .long 1] rfl
  · exact returns_foldAnswer integerTower .div [.long 7, .long 2] rfl
  · have hboth : ∀ v ∈ [Value.long 7, .long 2], Exact v := by
      simp only [forall_mem_cons, not_mem_nil, false_implies, implies_true, and_true]
      exact ⟨.long 7, .long 2⟩
    refine (divide_exact integerTower hboth).1 ?_
    rintro v hv
    obtain rfl := mem_singleton.mp hv
    exact two_ne_zero
  · exact returns_foldAnswer integerTower .rem [.long (-7), .long 2] rfl

end Calls

end Clojurust.Ir
