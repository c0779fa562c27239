import Clojurust.Builtins.Compare

/-!
# Known functions

Model of `dispatch_known_fn`, `builtin_arith` and `builtin_compare` of
`crates/cljrs-eval/src/ir_interp.rs` for the known functions of arithmetic, comparison and
the inline expansions. Numbers of other kinds, and calls that do not have two operands, go to the
builtin of the name.

* `KnownFn` — these known functions; `callNative` — their builtins;
* `longArith`, `f64Arith`, `builtinArith` — arithmetic;
* `longCompare`, `f64Compare`, `builtinCompare` — comparison.
-/

namespace Clojurust.Ir

open Builtins

inductive KnownFn where
  | add
  | sub
  | mul
  | div
  | rem
  | eq
  | lt
  | gt
  | lte
  | gte
  deriving DecidableEq, Repr

/-- The result of a builtin, or the error or panic it ends with. -/
abbrev Answer := Builtins.Outcome Value

/-- `args[0]` and `args[1]`, which panic if there are none. -/
def withTwo (f : Value → Value → Answer) : List Value → Answer
  | x :: y :: _ => f x y
  | _ => .error (.panic "index out of bounds")

section Dispatch

variable (num : Tower)

/-- `builtin_call_native`: the function of the builtin, whatever its arity. -/
def callNative : KnownFn → List Value → Answer
  | .add => builtinAdd num
  | .sub => builtinSub num
  | .mul => builtinMul num
  | .div => builtinDiv num
  | .rem => withTwo (builtinRem num.toArith)
  | .eq => builtinEq num
  | .lt => builtinLt num
  | .gt => builtinGt num
  | .lte => builtinLte num
  | .gte => builtinGte num

/-- A sum, difference or product that fits, or an error. -/
def checked (n : Int) : Answer :=
  match toI64? n with
  | some l => .ok (.long l)
  | none => other "integer overflow"

/-- `builtin_arith` on two 64-bit integers. -/
def longArith (op : KnownFn) (x y : Int64) : Answer :=
  match op with
  | .add => checked (x.toInt + y.toInt)
  | .sub => checked (x.toInt - y.toInt)
  | .mul => checked (x.toInt * y.toInt)
  | .div =>
    if y = 0 then other "Divide by zero"
    else do return .long (← i64Div x y)
  | .rem =>
    if y = 0 then other "Divide by zero"
    else do return .long (← i64Rem x y)
  | _ => callNative num op [.long x, .long y]

/-- `builtin_arith` on two doubles, with the operands as they are for the builtin. -/
def f64Arith (op : KnownFn) (a b : Value) (x y : F64) : Answer :=
  match op with
  | .add => .ok (.double (num.f64Add x y))
  | .sub => .ok (.double (num.f64Sub x y))
  | .mul => .ok (.double (num.f64Mul x y))
  | .div => .ok (.double (num.f64Div x y))
  | .rem => .ok (.double (num.f64Rem x y))
  | _ => callNative num op [a, b]

def builtinArith (op : KnownFn) (args : List Value) : Answer :=
  match args with
  | [.long x, .long y] => longArith num op x y
  | [.double x, .double y] => f64Arith num op (.double x) (.double y) x y
  | [.long x, .double y] => f64Arith num op (.long x) (.double y) (F64.ofInt x.toInt) y
  | [.double x, .long y] => f64Arith num op (.double x) (.long y) x (F64.ofInt y.toInt)
  | _ => callNative num op args

/-- `x < y`, `x > y`, `x <= y` and `x >= y`, by how they compare. -/
def compares (op : KnownFn) : Option Ordering → Bool
  | some o =>
    match op with
    | .lt => o == .lt
    | .gt => o == .gt
    | .lte => o != .gt
    | .gte => o != .lt
    | _ => false
  | none => false

def isCompare : KnownFn → Bool
  | .lt | .gt | .lte | .gte => true
  | _ => false

def builtinCompare (op : KnownFn) (args : List Value) : Answer :=
  match args with
  | [.long x, .long y] => .ok (.bool (compares op (some (compare x.toInt y.toInt))))
  | [.double x, .double y] => .ok (.bool (compares op (f64PartialCmp x y)))
  | [.long x, .double y] => .ok (.bool (compares op (f64PartialCmp (F64.ofInt x.toInt) y)))
  | [.double x, .long y] => .ok (.bool (compares op (f64PartialCmp x (F64.ofInt y.toInt))))
  | [_, _] => if isCompare op then callNative num op args else .ok (.bool false)
  | _ => .ok (.bool false)

def dispatchKnownFn (op : KnownFn) (args : List Value) : Answer :=
  match op with
  | .add | .sub | .mul | .div | .rem => builtinArith num op args
  | .eq =>
    match args with
    | [x, y] => .ok (.bool (x.eq num.toNumerics y))
    | _ => .ok (.bool false)
  | .lt | .gt | .lte | .gte => builtinCompare num op args

end Dispatch

end Clojurust.Ir
