import Clojurust.Lib.Interleaving
import Clojurust.Lib.BoundedFifo
import Mathlib.Algebra.Group.Nat.Defs

/-!
# Channels

`CljChannel` of `crates/cljrs-async/src/channel.rs`, and its builtins
(`crates/cljrs-async/src/builtins.rs`), as calls that interleave: a section under the lock, a
notification and an await are each one step.

* `ChannelState`, `Notify`, `Chan` — the queue under its lock, and the two asynchronous wakeups;
* `Pc`, `next` — where a call stands, and its next step;
* `machine`, `Chan.new` — all calls on one channel.

A value in the queue carries the call that put it, and the log carries the actions that have taken
effect; both are there for the statements and no step reads them.
-/

namespace Clojurust.Channel

open Interleaving BoundedFifo

variable {V : Type}

/-! ## State -/

/-- `ChannelState`. -/
structure ChannelState (V : Type) where
  queue : List (Nat × V)
  capacity : Nat
  closed : Bool
  /-- the number of takes; the counter of the source is this number in 64 bits -/
  taken : Nat
  /-- the actions that have taken effect, newest first -/
  log : List (Nat × Action V)

/-- `tokio::sync::Notify`: the calls that wait, first come first served, and a permit that is stored
when nobody waits. -/
structure Notify where
  waiters : List Nat
  permit : Bool

def Notify.notifyOne : Notify → Notify
  | ⟨[], _⟩ => ⟨[], true⟩
  | ⟨_ :: waiters, permit⟩ => ⟨waiters, permit⟩

/-- The two notifications: takers wait for `notEmpty`, putters for `notFull`. -/
inductive Side where
  | notEmpty
  | notFull
  deriving DecidableEq

structure Chan (V : Type) where
  state : ChannelState V
  notEmpty : Notify
  notFull : Notify

namespace Chan

/-- `CljChannel::new`. -/
def new (capacity : Nat) : Chan V := ⟨⟨[], capacity, false, 0, []⟩, ⟨[], false⟩, ⟨[], false⟩⟩

def notify (c : Chan V) : Side → Notify
  | .notEmpty => c.notEmpty
  | .notFull => c.notFull

def setNotify (c : Chan V) (n : Notify) : Side → Chan V
  | .notEmpty => { c with notEmpty := n }
  | .notFull => { c with notFull := n }

end Chan

/-! ## Calls -/

/-- The entry points: `take!`, `put!`, `<!!`, `>!!`, `poll!`, `offer!` and `close!`. -/
inductive Op (V : Type) where
  | take
  | put (v : V)
  | takeBlocking
  | putBlocking (v : V)
  | poll
  | offer (v : V)
  | close

inductive Result (V : Type) where
  | value (v : V)
  | accepted (b : Bool)
  | unit

/-- Where a call stands. -/
inductive Pc (V : Type) where
  /-- the loop of `take` -/
  | taking
  /-- the loop of `put`: a free slot of the buffer, or phase 1 of a rendezvous -/
  | putting (v : V)
  /-- phase 2 of a rendezvous, with its token -/
  | pending (token : Nat)
  | takingBlocking
  | puttingBlocking (v : V)
  | pendingBlocking (token : Nat)
  | polling
  | offering (v : V)
  | closing
  /-- about to fire `notify_one` -/
  | waking (side : Side) (next : Pc V)
  /-- about to await a notification -/
  | awaiting (side : Side) (next : Pc V)
  /-- awaits a notification: woken once it is no longer among the waiters -/
  | parked (side : Side) (next : Pc V)
  | returned (result : Result V)

/-- The loop that a call is in, its notifications and awaits apart. -/
def Pc.core : Pc V → Pc V
  | .waking _ next | .awaiting _ next | .parked _ next => next.core
  | pc => pc

structure Call (V : Type) where
  op : Op V
  pc : Pc V

def Op.start : Op V → Pc V
  | .take => .taking
  | .put v => .putting v
  | .takeBlocking => .takingBlocking
  | .putBlocking v => .puttingBlocking v
  | .poll => .polling
  | .offer v => .offering v
  | .close => .closing

/-! ## Sections under the lock -/

namespace ChannelState

variable (st : ChannelState V) (i : Nat)

/-- The take counter, a `u64` that wraps around. -/
def counter : Nat := st.taken % 2 ^ 64

def record (action : Action V) : ChannelState V := { st with log := (i, action) :: st.log }

/-- A value is pushed. -/
def push (v : V) : ChannelState V :=
  { st with queue := st.queue ++ [(i, v)], log := (i, .put v) :: st.log }

/-- The first value is taken; the rest of the queue is given. -/
def pop (v : V) (rest : List (Nat × V)) : ChannelState V :=
  { st with queue := rest, taken := st.taken + 1, log := (i, .take v) :: st.log }

/-- A rendezvous offer is withdrawn: `pop_front` without a take. -/
def withdraw : ChannelState V :=
  { st with queue := st.queue.tail, log := (i, .withdraw) :: st.log }

def close : ChannelState V := { st with closed := true, log := (i, .close) :: st.log }

end ChannelState

section Sections

variable [DecidableEq V] (nil : V) (i : Nat) (st : ChannelState V)

/-- One round of the loop of `take`: `try_take`, the notifications that follow it, or an await. A
`nil` is taken for the sign of a closed channel and wakes another taker. -/
def takeRound : ChannelState V × Pc V :=
  match st.queue with
  | (_, v) :: rest =>
    (st.pop i v rest, .waking .notFull
      (if v = nil then .waking .notEmpty (.returned (.value v)) else .returned (.value v)))
  | [] =>
    if st.closed then (st.record i .takeClosed, .waking .notEmpty (.returned (.value nil)))
    else (st, .awaiting .notEmpty .taking)

/-- `poll!`: `try_take`, and `nil` for an empty channel. -/
def pollRound : ChannelState V × Pc V :=
  match st.queue with
  | (_, v) :: rest => (st.pop i v rest, .waking .notFull (.returned (.value v)))
  | [] => (st.record i .miss, .returned (.value nil))

/-- One round of `take_blocking`. -/
def takeBlockingRound : ChannelState V × Pc V :=
  match st.queue with
  | (_, v) :: rest => (st.pop i v rest, .returned (.value v))
  | [] =>
    if st.closed then (st.record i .takeClosed, .returned (.value nil))
    else (st, .takingBlocking)

end Sections

section Puts

variable (i : Nat) (st : ChannelState V)

/-- One round of the loop of `put`: `rv_offer` on a rendezvous channel, `try_put_buffered` on a
buffered one. -/
def putRound (v : V) : ChannelState V × Pc V :=
  if st.closed then (st.record i .refuse, .returned (.accepted false))
  else if st.capacity = 0 then
    if st.queue = [] then (st.push i v, .waking .notEmpty (.pending st.counter))
    else (st, .awaiting .notFull (.putting v))
  else if st.queue.length < st.capacity then
    (st.push i v, .waking .notEmpty (.returned (.accepted true)))
  else (st, .awaiting .notFull (.putting v))

/-- `rv_status` in phase 2 of `put`. -/
def pendingRound (token : Nat) : ChannelState V × Pc V :=
  if st.counter ≠ token then (st, .returned (.accepted true))
  else if st.closed then (st.withdraw i, .returned (.accepted false))
  else (st, .awaiting .notFull (.pending token))

/-- One round of `put_blocking` before its value is in the queue. -/
def putBlockingRound (v : V) : ChannelState V × Pc V :=
  if st.closed then (st.record i .refuse, .returned (.accepted false))
  else if st.capacity = 0 then
    if st.queue = [] then (st.push i v, .pendingBlocking st.counter) else (st, .puttingBlocking v)
  else if st.queue.length < st.capacity then (st.push i v, .returned (.accepted true))
  else (st, .puttingBlocking v)

/-- One round of phase 2 of `put_blocking`. -/
def pendingBlockingRound (token : Nat) : ChannelState V × Pc V :=
  if st.counter ≠ token then (st, .returned (.accepted true))
  else if st.closed then (st.withdraw i, .returned (.accepted false))
  else (st, .pendingBlocking token)

/-- `offer!`: nothing on a rendezvous channel, `try_put_buffered` on a buffered one. -/
def offerRound (v : V) : ChannelState V × Pc V :=
  if st.capacity = 0 ∨ st.closed ∨ st.capacity ≤ st.queue.length then
    (st.record i .decline, .returned (.accepted false))
  else (st.push i v, .waking .notEmpty (.returned (.accepted true)))

/-- `close`: the flag, and then one notification on each side. -/
def closeRound : ChannelState V × Pc V :=
  (st.close i, .waking .notEmpty (.waking .notFull (.returned .unit)))

end Puts

/-! ## Steps -/

section Steps

variable [DecidableEq V] (nil : V)

/-- The next step of a call, if it has one. -/
def next (i : Nat) (c : Chan V) : Pc V → Option (Chan V × Pc V)
  | .taking => some ({ c with state := (takeRound nil i c.state).1 }, (takeRound nil i c.state).2)
  | .putting v => some ({ c with state := (putRound i c.state v).1 }, (putRound i c.state v).2)
  | .pending token =>
    some ({ c with state := (pendingRound i c.state token).1 }, (pendingRound i c.state token).2)
  | .takingBlocking =>
    some ({ c with state := (takeBlockingRound nil i c.state).1 }, (takeBlockingRound nil i c.state).2)
  | .puttingBlocking v =>
    some ({ c with state := (putBlockingRound i c.state v).1 }, (putBlockingRound i c.state v).2)
  | .pendingBlocking token =>
    some ({ c with state := (pendingBlockingRound i c.state token).1 },
      (pendingBlockingRound i c.state token).2)
  | .polling => some ({ c with state := (pollRound nil i c.state).1 }, (pollRound nil i c.state).2)
  | .offering v => some ({ c with state := (offerRound i c.state v).1 }, (offerRound i c.state v).2)
  | .closing => some ({ c with state := (closeRound i c.state).1 }, (closeRound i c.state).2)
  | .waking side next => some (c.setNotify (c.notify side).notifyOne side, next)
  | .awaiting side next =>
    if (c.notify side).permit then
      some (c.setNotify ⟨(c.notify side).waiters, false⟩ side, next)
    else
      some (c.setNotify ⟨(c.notify side).waiters ++ [i], false⟩ side, .parked side next)
  | .parked side next => if i ∈ (c.notify side).waiters then none else some (c, next)
  | .returned _ => none

/-- All calls on one channel. -/
def machine : Machine (Op V) (Chan V) (Call V) Unit where
  start op := ⟨op, op.start⟩
  next i _ c call :=
    match next nil i c call.pc with
    | none => none
    | some (c, pc) => some (c, ⟨call.op, pc⟩)

/-- A new channel without calls. -/
def fresh (capacity : Nat) : State (Chan V) (Call V) := ⟨.new capacity, []⟩

end Steps

end Clojurust.Channel
