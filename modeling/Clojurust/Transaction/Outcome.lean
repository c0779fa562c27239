import Clojurust.Value.Number
import Mathlib.Data.List.Infix

/-!
# The outcome of a transaction

How a result or an error leaves `execute_with_host` of `crates/cljrs-tx/src/lib.rs`.

* `SerializedValue`, `validatePureData` — the data that crosses the boundary;
* `EvalError`, `mapEvalError` — the errors of the evaluator and what the caller is told;
* `finish` — the end of a transaction, after evaluation returned, failed or unwound.

Evaluation itself, the limits on memory and gas and the policy on effects are left out.
-/

namespace Clojurust.Transaction

/-! ## Boundary data -/

/-- `SerializedValue` of `crates/cljrs-value/src/clone.rs`. The shared cells are named by what they
share. -/
inductive SerializedValue where
  | nil
  | bool (b : Bool)
  | long (n : Int64)
  | double (x : F64)
  | bigInt (n : Int)
  | bigDecimal (d : BigDecimal)
  | ratio (r : ℚ)
  | char (c : Char)
  | str (s : String)
  | uuid (u : BitVec 128)
  | instant (ms : Int64)
  | pattern (source : String)
  | symbol (s : Symbol)
  | keyword (k : Keyword)
  | list (items : List SerializedValue)
  | vector (items : List SerializedValue)
  | arrayMap (pairs : List (SerializedValue × SerializedValue))
  | hashMap (pairs : List (SerializedValue × SerializedValue))
  | sortedMap (pairs : List (SerializedValue × SerializedValue))
  | hashSet (items : List SerializedValue)
  | sortedSet (items : List SerializedValue)
  | queue (items : List SerializedValue)
  | cons (head tail : SerializedValue)
  | typeInstance (typeTag : String) (fields : List (SerializedValue × SerializedValue))
  | error (message : String)
  | booleanArray (items : List Bool)
  | byteArray (items : List Int8)
  | shortArray (items : List Int16)
  | intArray (items : List Int32)
  | longArray (items : List Int64)
  | floatArray (items : List UInt32)
  | doubleArray (items : List F64)
  | charArray (items : List Char)
  | objectArray (items : List SerializedValue)
  | withMeta (value metadata : SerializedValue)
  | reduced (inner : SerializedValue)
  | sharedAtom (cell : Nat)
  | byteBlob (bytes : List UInt8)
  | var (ns name : String) (isMacro : Bool) (cell : Nat)

mutual

/-- `validate_pure_data`: the first part that is no pure data is named. -/
def validatePureData : SerializedValue → Except String Unit
  | .sharedAtom _ => .error "shared atom"
  | .byteBlob _ => .error "shared byte blob"
  | .var _ _ _ _ => .error "Var"
  | .error _ => .error "error object"
  | .list items | .vector items | .hashSet items | .sortedSet items | .queue items
  | .objectArray items => validateItems items
  | .arrayMap pairs | .hashMap pairs | .sortedMap pairs => validatePairs pairs
  | .cons head tail => (validatePureData head).bind fun _ => validatePureData tail
  | .typeInstance _ fields => validatePairs fields
  | .withMeta value metadata => (validatePureData value).bind fun _ => validatePureData metadata
  | .reduced inner => validatePureData inner
  | _ => .ok ()

def validateItems : List SerializedValue → Except String Unit
  | [] => .ok ()
  | item :: items => (validatePureData item).bind fun _ => validateItems items

def validatePairs : List (SerializedValue × SerializedValue) → Except String Unit
  | [] => .ok ()
  | (key, value) :: pairs =>
    (validatePureData key).bind fun _ => (validatePureData value).bind fun _ => validatePairs pairs

end

/-! ## Errors -/

/-- `EvalError`; a value `V` may be thrown. -/
inductive EvalError (V : Type) where
  | runtime (message : String)
  | gasExhausted
  | interrupted
  | exit (code : Int)
  | forbiddenEffect (operation : String)
  | unboundSymbol (name : String)
  | arity (name expected : String) (got : Nat)
  | notCallable (what : String)
  | thrown (value : V)
  | read (message : String)
  | recur (args : List V)
  | commitSignatureVerificationFailed (commit reason : String)
  deriving DecidableEq

inductive CloneError where
  | notShareable (typeName : String)
  | disconnected
  deriving DecidableEq

inductive TxError where
  | invalidMemoryLimit
  | invalidInput (what : String)
  | invalidResult (what : String)
  | evaluation (message : String)
  | gasExhausted
  | depthExceeded
  | forbiddenEffect (operation : String)
  | memoryExhausted (limit used requested : Nat)
  | clone (error : CloneError)
  | panic
  deriving DecidableEq

/-- `DEPTH_MSG`. -/
def depthMsg : String := "cljrs-tx: transaction call depth exceeded"

/-- The text of an error. -/
def EvalError.text {V : Type} (display : V → String) : EvalError V → String
  | .runtime message => "runtime error: " ++ message
  | .gasExhausted => "gas exhausted"
  | .interrupted => "interrupted"
  | .exit code => "process exit requested: " ++ toString code
  | .forbiddenEffect operation => "effect forbidden in transaction function: " ++ operation
  | .unboundSymbol name => "unbound symbol: " ++ name
  | .arity name expected got =>
    "arity error calling " ++ name ++ ": expected " ++ expected ++ ", got " ++ toString got
  | .notCallable what => "not callable: " ++ what
  | .thrown value => display value
  | .read message => "read error: " ++ message
  | .recur _ => "internal: recur outside loop or fn"
  | .commitSignatureVerificationFailed commit reason =>
    "commit " ++ commit.quote ++ " failed signature verification — refusing to execute versioned "
      ++ "symbol (enable GPG/SSH trust or disable :verify-commit-signatures): " ++ reason

def mapEvalError {V : Type} (display : V → String) : EvalError V → TxError
  | .gasExhausted => .gasExhausted
  | .forbiddenEffect operation => .forbiddenEffect operation
  | other =>
    if depthMsg.toList <:+: (other.text display).toList then .depthExceeded
    else .evaluation (other.text display)

/-- `RegionLimitExceeded`, the payload of the panic of a full arena. -/
structure RegionLimitExceeded where
  limit : Nat
  used : Nat
  requested : Nat

/-- How evaluation ends without a value: with an error, or by a panic. -/
inductive Stop (V : Type) where
  | error (e : EvalError V)
  | unwound (payload : Option RegionLimitExceeded)

/-- What the caller gets. -/
def finish {V : Type} (display : V → String) :
    Except (Stop V) (Except CloneError SerializedValue) → Except TxError SerializedValue
  | .error (.error e) => .error (mapEvalError display e)
  | .error (.unwound (some exhausted)) =>
    .error (.memoryExhausted exhausted.limit exhausted.used exhausted.requested)
  | .error (.unwound none) => .error .panic
  | .ok (.error e) => .error (.clone e)
  | .ok (.ok result) =>
    match validatePureData result with
    | .error what => .error (.invalidResult what)
    | .ok () => .ok result

end Clojurust.Transaction
