import Mathlib.Data.List.Basic

/-!
# A bounded queue that can be closed

The sequential object behind a channel: values wait in the order in which they were put, at most a
bound of them, and after closing no value comes in any more.

* `Action`, `Fifo.Step` — an action with its answer, and when the queue allows it;
* `Replay` — the queue after a list of actions, newest first;
* `replay_delivery` — what was put is what was taken, in order, and what still waits, within the bound.
-/

namespace BoundedFifo

open List

variable {V : Type}

/-- An action on the queue together with its answer. -/
inductive Action (V : Type) where
  /-- a value is accepted -/
  | put (v : V)
  /-- a value is delivered -/
  | take (v : V)
  /-- a take finds the queue closed and drained -/
  | takeClosed
  /-- an attempt to take finds nothing -/
  | miss
  /-- a put finds the queue closed -/
  | refuse
  /-- an attempt to put is declined -/
  | decline
  /-- a value on offer is withdrawn, as the queue was closed -/
  | withdraw
  | close

/-- The values that wait, the first to be delivered in front. -/
structure Fifo (V : Type) where
  waiting : List V
  closed : Bool

def Fifo.empty : Fifo V := ⟨[], false⟩

/-- The queue after an action, if it allows that action with that answer. -/
def Fifo.Step (bound : Nat) (q : Fifo V) (q' : Fifo V) : Action V → Prop
  | .put v => q.closed = false ∧ q.waiting.length < bound ∧ q' = ⟨q.waiting ++ [v], q.closed⟩
  | .take v => q.waiting = v :: q'.waiting ∧ q'.closed = q.closed
  | .takeClosed => q.closed = true ∧ q.waiting = [] ∧ q' = q
  | .miss => q.waiting = [] ∧ q' = q
  | .refuse => q.closed = true ∧ q' = q
  | .decline => q' = q
  | .withdraw => q.closed = true ∧ q' = q
  | .close => q' = ⟨q.waiting, true⟩

/-- The queue after actions of callers, the newest first. -/
def Replay (bound : Nat) : List (Nat × Action V) → Fifo V → Prop
  | [], q => q = .empty
  | (_, action) :: before, q => ∃ p, Replay bound before p ∧ Fifo.Step bound p q action

/-- The values that were accepted, in order. -/
def accepted : List (Nat × Action V) → List V
  | [] => []
  | (_, .put v) :: before => accepted before ++ [v]
  | _ :: before => accepted before

/-- The values that were delivered, in order. -/
def delivered : List (Nat × Action V) → List V
  | [] => []
  | (_, .take v) :: before => delivered before ++ [v]
  | _ :: before => delivered before

theorem mem_delivered {v : V} {caller : Nat} :
    ∀ {actions : List (Nat × Action V)}, (caller, .take v) ∈ actions → v ∈ delivered actions
  | (_, action) :: before, h => by
    rcases mem_cons.mp h with heq | h
    · cases heq
      exact mem_append_right _ (mem_singleton_self v)
    · have ih := mem_delivered h
      cases action with
      | take w => exact mem_append_left _ ih
      | _ => exact ih

theorem exists_of_mem_accepted {v : V} : ∀ {actions : List (Nat × Action V)}, v ∈ accepted actions →
      ∃ caller, (caller, .put v) ∈ actions
  | (caller, action) :: before, h => by
    have hlift : v ∈ accepted before → ∃ caller', (caller', Action.put v) ∈ (caller, action) :: before := by
      intro hbefore
      obtain ⟨caller', hcaller'⟩ := exists_of_mem_accepted hbefore
      exact ⟨caller', .tail _ hcaller'⟩
    cases action with
    | put w =>
      rcases mem_append.mp h with h | h
      · exact hlift h
      · grind
    | _ => exact hlift h

/-- **Nothing is lost, duplicated or reordered**: what was accepted is what was delivered, followed
by what still waits, and that is never more than the bound. -/
theorem replay_delivery {bound : Nat} :
    ∀ {actions : List (Nat × Action V)} {q : Fifo V}, Replay bound actions q →
      accepted actions = delivered actions ++ q.waiting ∧ q.waiting.length ≤ bound
  | [], q, h => by cases h; exact ⟨rfl, Nat.zero_le bound⟩
  | (caller, action) :: before, q, h => by
    obtain ⟨p, hbefore, hstep⟩ := h
    have ih := replay_delivery hbefore
    cases action with
    | put v =>
      obtain ⟨-, hroom, rfl⟩ := hstep
      simp only [accepted, delivered, ih.1, append_assoc, true_and]
      grind
    | take v =>
      rw [hstep.1, length_cons] at ih
      simp only [accepted, delivered, ih.1, append_assoc, singleton_append, true_and]
      omega
    | takeClosed => obtain ⟨-, -, rfl⟩ := hstep; exact ih
    | miss | refuse | withdraw => obtain ⟨-, rfl⟩ := hstep; exact ih
    | decline | close => cases hstep; exact ih

end BoundedFifo
