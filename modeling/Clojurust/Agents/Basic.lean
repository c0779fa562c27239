import Clojurust.Future.Basic
import Clojurust.Lib.Mailbox

/-!
# Agents

`Agent` (`crates/cljrs-value/src/types.rs`) with `send`, `await-agent` and `restart-agent`
(`crates/cljrs-builtins/src/builtins.rs`), the drainer of the async runtime
(`crates/cljrs-async/src/runtime.rs`) and the drainer that runs where an action is sent
(`agent_drain_sync`), `await` in the async evaluator (`eval_async.rs`), and the `await` that have no case
for agents: of the tree-walker (`eval_await`), of the IR interpreter (`Inst::Await`) and of compiled async
code (`check_ready` of `crates/cljrs-async/src/state_machine.rs`).

Actions and watches are code of the user: their answers are labels, and what they do to the agent is the
steps of other calls in between. Actions are known by the number of the `send` that queued them. Left out
are metadata, the wakers of async tasks (an `await` takes its step when its condition holds) and garbage
collection.

* `Agent` — the mailbox, with a history that no step reads;
* `Pc`, `next` — where a call stands, and its next step;
* `machine` — all calls on one agent, and the drainers.
-/

namespace Clojurust.Agents

open Interleaving Future Mailbox

variable {V : Type}

structure Agent (V : Type) where
  state : V
  error : Option V
  watches : List (V × V)
  queue : List Nat
  draining : Bool
  /-- the drainers that are spawned and have not run yet -/
  spawned : Nat
  /-- the number of actions that were queued -/
  sent : Nat
  /-- the action that is worked on; no step reads it -/
  busy : Option Nat
  /-- newest first -/
  history : List (Action Nat V)

/-- `Agent::new`. -/
def Agent.new (state : V) : Agent V := ⟨state, none, [], [], false, 0, 0, none, []⟩

/-- What a call returns: the agent, nil, or the state of the agent. -/
inductive Reply where
  | agent
  | nil
  | state

/-- The evaluators whose `await` has no case for agents. -/
inductive Evaluator where
  | treeWalker
  | irInterp
  | compiled

/-- What `await` gives there: the IR interpreter dereferences, the others give what is no future. -/
def Evaluator.reply : Evaluator → Reply
  | irInterp => .state
  | treeWalker | compiled => .agent

/-- What a call does when it has drained the mailbox: `send` and `restart-agent` return the agent,
`await-agent` goes on, and a drainer of the runtime is over. -/
inductive After where
  | agent
  | release
  | over

/-- Where a call stands. -/
inductive Pc (V : Type) where
  | sending
  /-- a drainer that the runtime has spawned -/
  | spawned
  /-- the head of the loop of a drainer -/
  | draining (after : After)
  /-- an action runs -/
  | running (after : After) (action : Nat) (old : V)
  /-- about to call the next watch -/
  | notifying (after : After) (action : Nat) (pending : List (V × V)) (old new : V)
  /-- a watch runs -/
  | watching (after : After) (action : Nat) (pending : List (V × V)) (old new : V)
  /-- `await` in the async evaluator -/
  | awaiting
  /-- `await` elsewhere -/
  | awaitingElsewhere (evaluator : Evaluator)
  | awaitingAgent
  | restarting (state : V) (clear : Bool)
  /-- `add-watch` and `remove-watch` -/
  | rewatching (watches : List (V × V))
  | returned (result : Except String Reply)

namespace Agent

variable (a : Agent V)

def record (action : Action Nat V) : Agent V := { a with history := action :: a.history }

/-- `is_idle`. -/
def isIdle : Bool := !a.draining && a.queue.isEmpty

def push : Agent V :=
  { a.record (.accept a.sent) with queue := a.queue ++ [a.sent], sent := a.sent + 1 }

/-- `agent_schedule_drain`: with a runtime a drainer is spawned, without one the caller drains. A drainer
that is active takes up what was queued. -/
def schedule (async : Bool) (after : After) : Agent V × Pc V :=
  if a.draining then (a, .returned (.ok .agent))
  else if async then ({ a with draining := true, spawned := a.spawned + 1 }, .returned (.ok .agent))
  else ({ a with draining := true }, .draining after)

/-- `restart-agent` on an agent that has failed: the queue is dropped or kept. -/
def restart (state : V) (clear : Bool) : Agent V :=
  { a.record (.restart state clear) with
    state := state, error := none, queue := if clear then [] else a.queue }

/-- A queue that was kept is drained. -/
def resume (async : Bool) : Agent V × Pc V :=
  if a.queue.isEmpty then (a, .returned (.ok .agent)) else a.schedule async .agent

/-- What is done when the mailbox is drained, or the agent has failed. -/
def leave : After → Agent V × Pc V
  | .agent => (a, .returned (.ok .agent))
  | .release => (a.record .release, .returned (.ok .nil))
  | .over => (a, .returned (.ok .nil))

/-- An action or a watch has failed. -/
def fail (str : String → V) (action : Nat) (e : EvalError V) : Agent V :=
  { a.record (.fail action) with
    error := some (e.toErrorValue str), draining := false, busy := none }

end Agent

inductive Label (V : Type) where
  | go
  | answer (r : Except (EvalError V) V)

section Machine

variable (str : String → V) (async : Bool)

/-- The next step of a call. -/
def next (label : Label V) (a : Agent V) (pc : Pc V) : Option (Agent V × Pc V) :=
  match label, pc with
  | .go, .sending =>
    if a.error.isSome then
      some (a, .returned (.error "send: agent is failed; check agent-error and use restart-agent"))
    else some (a.push.schedule async .agent)
  | .go, .spawned =>
    match a.spawned with
    | 0 => none
    | n + 1 => some ({ a with spawned := n }, .draining .over)
  | .go, .draining after =>
    match a.queue with
    | [] => some ({ a with draining := false }.leave after)
    | action :: queue =>
      some ({ a.record (.begin action a.state) with queue := queue, busy := some action },
        .running after action a.state)
  | .answer (.error e), .running after action _ => some ((a.fail str action e).leave after)
  | .answer (.ok new), .running after action old =>
    some ({ a.record (.succeed action new) with state := new }, .notifying after action a.watches old new)
  | .go, .notifying after action [] _ _ =>
    some ({ a.record (.finish action) with busy := none }, .draining after)
  | .go, .notifying after action (_ :: pending) old new => some (a, .watching after action pending old new)
  | .answer (.error e), .watching after action _ _ _ => some ((a.fail str action e).leave after)
  | .answer (.ok _), .watching after action pending old new => some (a, .notifying after action pending old new)
  | .go, .awaiting =>
    if a.isIdle || a.error.isSome then some (a.record .release, .returned (.ok .nil)) else none
  | .go, .awaitingElsewhere evaluator => some (a.record .release, .returned (.ok evaluator.reply))
  | .go, .awaitingAgent =>
    if !a.draining && !a.queue.isEmpty then some ({ a with draining := true }, .draining .release)
    else some (a.record .release, .returned (.ok .nil))
  | .go, .restarting state clear =>
    if a.error.isNone then some (a, .returned (.error "restart-agent: agent does not need a restart"))
    else some ((a.restart state clear).resume async)
  | .go, .rewatching watches => some ({ a with watches := watches }, .returned (.ok .agent))
  | _, _ => none

/-- The calls on an agent, and the drainers of the runtime. -/
inductive Op (V : Type) where
  | send
  | drain
  | await
  | awaitElsewhere (evaluator : Evaluator)
  | awaitAgent
  | restart (state : V) (clear : Bool)
  | rewatch (watches : List (V × V))

def Op.start : Op V → Pc V
  | .send => .sending
  | .drain => .spawned
  | .await => .awaiting
  | .awaitElsewhere evaluator => .awaitingElsewhere evaluator
  | .awaitAgent => .awaitingAgent
  | .restart state clear => .restarting state clear
  | .rewatch watches => .rewatching watches

/-- All calls on one agent. -/
def machine : Machine (Op V) (Agent V) (Pc V) (Label V) where
  start := Op.start
  next _ := next str async

end Machine

end Clojurust.Agents
