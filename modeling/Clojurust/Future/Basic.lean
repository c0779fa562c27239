import Clojurust.Lib.Interleaving

/-!
# Futures

`CljxFuture` (`crates/cljrs-value/src/types.rs`) with everyone who writes or reads its state: the
executor task of `spawn_future` and of `future-call`, a compiled state machine, the two kinds of
`deref` that run a body that nobody has started, `future-cancel`, and the readers. A section under the
lock is one step; the body runs without the lock.

* `settled`, `stolenSugar`, `stolenBuiltin` — the states that the writers record for an outcome;
* `Runner`, `Reader`, `Pc`, `next` — who takes part, and the next step of each;
* `machine`, `fresh` — all of them on one future.

The history of a future is there for the statements and no step reads it. What the body computes, the
condition variables and wakers behind a wait, and the warning for a failure that nobody observed are
left out.
-/

namespace Clojurust.Future

open Interleaving

variable {V : Type}

/-! ## Outcomes and states -/

/-- `EvalError`, as far as futures tell its cases apart: the other errors are given by their text. -/
inductive EvalError (V : Type) where
  | thrown (v : V)
  | gasExhausted
  | other (message : String)
  deriving DecidableEq

/-- `ValueError`, likewise. -/
inductive ValueError (V : Type) where
  | thrown (v : V)
  | gasExhausted
  | other (message : String)

inductive FutureState (V : Type) where
  | running
  | done (v : V)
  | failed (v : V)
  | gasExhausted
  | cancelled

section Errors

variable (errorValue : String → V)

/-- `EvalError::to_error_value`; `errorValue` is the `Value::Error` with a text. -/
def EvalError.toErrorValue : EvalError V → V
  | .thrown v => v
  | .gasExhausted => errorValue "gas exhausted"
  | .other message => errorValue message

/-- The state that `settle_future` writes. -/
def settled : Except (EvalError V) V → FutureState V
  | .ok v => .done v
  | .error .gasExhausted => .gasExhausted
  | .error e => .failed (e.toErrorValue errorValue)

/-- The state that `@` writes after it has run the body. -/
def stolenSugar : Except (EvalError V) V → FutureState V
  | .ok v => .done v
  | .error e => .failed (e.toErrorValue errorValue)

/-- The errors of `callback::invoke`. -/
def invokeError : EvalError V → ValueError V
  | .thrown v => .thrown v
  | .gasExhausted => .gasExhausted
  | .other message => .other message

/-- The state that the `deref` builtin writes after it has run the body. -/
def stolenBuiltin : Except (ValueError V) V → FutureState V
  | .ok v => .done v
  | .error (.thrown v) => .failed v
  | .error .gasExhausted => .gasExhausted
  | .error (.other message) => .failed (errorValue message)

end Errors

/-! ## Readers -/

/-- `await_value`, and in the same way `eval_await` and `deref_value`. -/
def awaitValue : FutureState V → Option (Except (EvalError V) V)
  | .running => none
  | .done v => some (.ok v)
  | .failed v => some (.error (.thrown v))
  | .gasExhausted => some (.error .gasExhausted)
  | .cancelled => some (.error (.other "runtime error: future was cancelled"))

/-- The `deref` builtin on a settled future. -/
def derefValue : FutureState V → Option (Except (ValueError V) V)
  | .running => none
  | .done v => some (.ok v)
  | .failed v => some (.error (.thrown v))
  | .gasExhausted => some (.error .gasExhausted)
  | .cancelled => some (.error (.other "future was cancelled"))

/-- `rt_deref`, the `deref` of compiled code: `none` inside is the constant `nil`, which it answers for
every error. -/
def rtDeref (state : FutureState V) : Option (Option V) := (awaitValue state).map Except.toOption

/-- `Readiness` of a compiled state machine's await; `str` makes a string value. -/
inductive Readiness (V : Type) where
  | ready (v : V)
  | failed (v : V)
  | gasExhausted

/-- `check_ready`, with `none` for `Pending`. -/
def checkReady (str : String → V) : FutureState V → Option (Readiness V)
  | .running => none
  | .done v => some (.ready v)
  | .failed v => some (.failed v)
  | .gasExhausted => some .gasExhausted
  | .cancelled => some (.failed (str "future was cancelled"))

/-- `is_done`. -/
def FutureState.isDone : FutureState V → Bool
  | .running => false
  | _ => true

/-- `is_cancelled`. -/
def FutureState.isCancelled : FutureState V → Bool
  | .cancelled => true
  | _ => false

inductive Reader where
  | await
  | deref
  | derefTimed
  | rtDeref
  | checkReady
  | isDone
  | isCancelled

inductive Reply (V : Type) where
  | awaited (result : Except (EvalError V) V)
  | dereferenced (result : Except (ValueError V) V)
  | timedOut
  | boxed (result : Option V)
  | readiness (r : Readiness V)
  | flag (b : Bool)

/-- What a reader answers in a state; `none` while it waits. -/
def Reader.read (str : String → V) (state : FutureState V) : Reader → Option (Reply V)
  | .await => (awaitValue state).map .awaited
  | .deref | .derefTimed => (derefValue state).map .dereferenced
  | .rtDeref => (Future.rtDeref state).map .boxed
  | .checkReady => (Future.checkReady str state).map .readiness
  | .isDone => some (.flag state.isDone)
  | .isCancelled => some (.flag state.isCancelled)

/-! ## Who takes part -/

/-- Who runs the body: the task of `spawn_future`, a compiled state machine, the executor task of
`future-call`, `@`, and the `deref` builtin. -/
inductive Runner where
  | task
  | compiled
  | call
  | sugar
  | builtin (timed : Bool)

/-- Where a participant stands. -/
inductive Pc (V : Type) where
  /-- a task that owns its body and has not been polled -/
  | launching (runner : Runner)
  /-- about to claim the body -/
  | claiming (runner : Runner)
  | running (runner : Runner)
  /-- the body is over and its outcome is to be recorded -/
  | settling (runner : Runner) (outcome : Except (EvalError V) V)
  | cancelling
  | observing (reader : Reader)
  | returned (reply : Option (Reply V))

/-- What a runner does when the body is settled, or when there was none to claim. -/
def Runner.after : Runner → Pc V
  | .task | .compiled | .call => .returned none
  | .sugar => .observing .await
  | .builtin true => .observing .derefTimed
  | .builtin false => .observing .deref

/-- The outcome that a runner records: `future-call` runs the body in a future of its own, which
nobody else can see, and awaits it. -/
def Runner.relay (errorValue : String → V) (outcome : Except (EvalError V) V) :
    Runner → Except (EvalError V) V
  | .call => (awaitValue (settled errorValue outcome)).getD outcome
  | _ => outcome

/-- The result of a poll function, `none` while it is pending. -/
def pollResult (code : Int) (pending : V) : Option (Except (EvalError V) V) :=
  if code = 0 then none
  else if code = 1 then some (.ok pending)
  else if code = 2 then some (.error (.thrown pending))
  else if code = 3 then some (.error .gasExhausted)
  else some (.error (.other s!"runtime error: compiled async poll returned invalid code {code}"))

/-! ## Steps -/

/-- What happens on a future. -/
inductive Entry (V : Type) where
  | start (i : Nat)
  | produce (i : Nat) (outcome : Except (EvalError V) V)
  | settle (state : FutureState V)
  | observe (reader : Reader) (reply : Reply V)

structure Shared (V : Type) where
  state : FutureState V
  /-- a body is there to be claimed -/
  thunk : Bool
  /-- the newest entry first -/
  history : List (Entry V)

namespace Shared

variable (shared : Shared V)

def record (entry : Entry V) : Shared V := { shared with history := entry :: shared.history }

def write (state : FutureState V) : Shared V :=
  { shared with state := state, history := .settle state :: shared.history }

/-- A write by a participant that looks whether the future is still running. -/
def writeIfRunning (state : FutureState V) : Shared V :=
  match shared.state with
  | .running => shared.write state
  | _ => shared

/-- The outcome of the body is recorded. -/
def settle (errorValue : String → V) (outcome : Except (EvalError V) V) : Runner → Shared V
  | .sugar => shared.writeIfRunning (stolenSugar errorValue outcome)
  | .builtin _ => shared.writeIfRunning (stolenBuiltin errorValue (outcome.mapError invokeError))
  | _ => shared.write (settled errorValue outcome)

end Shared

/-- What a step depends on: the end of the body with its outcome, a poll with its code, and a timeout
that expires. -/
inductive Label (V : Type) where
  | tick
  | finish (outcome : Except (EvalError V) V)
  | poll (code : Int) (pending : V)
  | expire

section Machine

variable (errorValue str : String → V)

/-- The next step of a participant, if it has one. -/
def next (i : Nat) (label : Label V) (shared : Shared V) (pc : Pc V) : Option (Shared V × Pc V) :=
  match label, pc with
  | .tick, .launching runner => some (shared.record (.start i), .running runner)
  | .tick, .claiming runner =>
    if shared.thunk then some ({ shared with thunk := false }.record (.start i), .running runner)
    else some (shared, runner.after)
  | .finish _, .running .compiled => none
  | .finish outcome, .running runner =>
    some (shared.record (.produce i outcome), .settling runner (runner.relay errorValue outcome))
  | .poll code pending, .running .compiled =>
    match pollResult code pending with
    | none => some (shared, .running .compiled)
    | some outcome => some (shared.record (.produce i outcome), .settling .compiled outcome)
  | .tick, .settling runner outcome => some (shared.settle errorValue outcome runner, runner.after)
  | .tick, .cancelling => some (shared.writeIfRunning .cancelled, .returned (some (.flag true)))
  | .tick, .observing reader =>
    match reader.read str shared.state with
    | none => none
    | some reply => some (shared.record (.observe reader reply), .returned (some reply))
  | .expire, .observing .derefTimed =>
    match shared.state with
    | .running => some (shared.record (.observe .derefTimed .timedOut), .returned (some .timedOut))
    | _ => none
  | _, _ => none

/-- Who may come to a future after it was made. -/
inductive Op where
  | sugar
  | builtin (timed : Bool)
  | read (reader : Reader)
  | cancel

def Op.start : Op → Pc V
  | .sugar => .claiming .sugar
  | .builtin timed => .claiming (.builtin timed)
  | .read reader => .observing reader
  | .cancel => .cancelling

def machine : Machine Op (Shared V) (Pc V) (Label V) where
  start op := op.start
  next := next errorValue str

/-- How a future is made: by `spawn_future`, for a compiled state machine, or by `future-call`, with
an executor task or, outside of an executor, without. -/
inductive Origin where
  | spawned
  | compiled
  | called (executor : Bool)

/-- A new future. -/
def fresh : Origin → State (Shared V) (Pc V)
  | .spawned => ⟨⟨.running, false, []⟩, [.launching .task]⟩
  | .compiled => ⟨⟨.running, false, []⟩, [.launching .compiled]⟩
  | .called true => ⟨⟨.running, true, []⟩, [.claiming .call]⟩
  | .called false => ⟨⟨.running, true, []⟩, []⟩

end Machine

end Clojurust.Future
