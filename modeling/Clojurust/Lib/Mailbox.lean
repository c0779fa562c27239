import Mathlib.Data.List.Basic

/-!
# A serial mailbox that can fail

Tasks are accepted and wait in order. They are worked on one at a time, each from the state that is there,
and a task that fails stops the box until it is restarted.

* `Action`, `Box.Step` — an action, and when the box allows it;
* `Replay`, `Serial` — the box after a list of actions, newest first;
* `Replay.idle` — a box that has failed works on nothing;
* `Serial.order` — tasks are begun in the order in which they were accepted, each at most once.
-/

namespace Mailbox

variable {α σ : Type}

inductive Action (α σ : Type) where
  | accept (a : α)
  /-- a task begins in a state -/
  | begin (a : α) (old : σ)
  /-- the task gives a new state -/
  | succeed (a : α) (new : σ)
  | finish (a : α)
  /-- the box fails in a task -/
  | fail (a : α)
  /-- a box that has failed starts again, with or without the tasks that wait -/
  | restart (state : σ) (clear : Bool)
  /-- somebody who waits for the box goes on -/
  | release

structure Box (α σ : Type) where
  state : σ
  failed : Bool
  waiting : List α
  busy : Option α

/-- The box after an action, if it allows the action. -/
def Box.Step (b b' : Box α σ) : Action α σ → Prop
  | .accept a => b.failed = false ∧ b' = { b with waiting := b.waiting ++ [a] }
  | .begin a old => b.failed = false ∧ b.busy = none ∧ b.state = old ∧ b.waiting = a :: b'.waiting ∧
      b' = { b with waiting := b'.waiting, busy := some a }
  | .succeed a new => b.busy = some a ∧ b' = { b with state := new }
  | .finish a => b.busy = some a ∧ b' = { b with busy := none }
  | .fail a => b.busy = some a ∧ b' = { b with failed := true, busy := none }
  | .restart state clear => b.failed = true ∧ b.busy = none ∧
      b' = { b with state := state, failed := false, waiting := if clear then [] else b.waiting }
  | .release => (b.failed = true ∨ (b.waiting = [] ∧ b.busy = none)) ∧ b' = b

def Box.new (state : σ) : Box α σ := ⟨state, false, [], none⟩

/-- The box after actions, the newest first. -/
def Replay (init : σ) : List (Action α σ) → Box α σ → Prop
  | [], b => b = .new init
  | action :: before, b => ∃ p, Replay init before p ∧ p.Step b action

/-- The box allows all the actions. -/
def Serial (init : σ) (actions : List (Action α σ)) : Prop := ∃ b, Replay init actions b

/-- The tasks that were accepted, in order. -/
def accepted : List (Action α σ) → List α
  | [] => []
  | .accept a :: before => accepted before ++ [a]
  | _ :: before => accepted before

/-- The tasks that were begun, in order. -/
def begun : List (Action α σ) → List α
  | [] => []
  | .begin a _ :: before => begun before ++ [a]
  | _ :: before => begun before

variable {init : σ} {b : Box α σ}

theorem Replay.idle : ∀ {actions : List (Action α σ)} {b : Box α σ}, Replay init actions b →
    b.failed = true → b.busy = none
  | [], _, h, hfailed => by
    cases h
    cases hfailed
  | action :: before, b, ⟨p, hp, hstep⟩, hfailed => by
    cases action with
    | accept a | release =>
      obtain ⟨-, rfl⟩ := hstep
      exact hp.idle hfailed
    | begin =>
      obtain ⟨hopen, -, -, -, hb⟩ := hstep
      grind
    | succeed =>
      obtain ⟨hbusy, rfl⟩ := hstep
      cases hbusy.symm.trans (hp.idle hfailed)
    | finish | fail =>
      obtain ⟨-, rfl⟩ := hstep
      rfl
    | restart =>
      obtain ⟨-, -, rfl⟩ := hstep
      cases hfailed

theorem Replay.order : ∀ {actions : List (Action α σ)} {b : Box α σ}, Replay init actions b →
    (begun actions ++ b.waiting).Sublist (accepted actions)
  | [], _, h => by
    cases h
    exact List.Sublist.refl _
  | action :: before, b, ⟨p, hp, hstep⟩ => by
    have ih := hp.order
    cases action with
    | accept a =>
      obtain ⟨-, rfl⟩ := hstep
      show (begun before ++ (p.waiting ++ [a])).Sublist (accepted before ++ [a])
      grind
    | begin a =>
      obtain ⟨-, -, -, hwaiting, -⟩ := hstep
      rw [hwaiting] at ih
      show ((begun before ++ [a]) ++ b.waiting).Sublist (accepted before)
      grind
    | succeed | finish | fail | release =>
      obtain ⟨-, rfl⟩ := hstep
      exact ih
    | restart =>
      obtain ⟨-, -, rfl⟩ := hstep
      refine List.Sublist.trans (List.Sublist.append_left ?_ _) ih
      grind

theorem Serial.order {actions : List (Action α σ)} (h : Serial init actions) :
    (begun actions).Sublist (accepted actions) := by
  obtain ⟨b, hb⟩ := h
  exact (List.sublist_append_left _ _).trans hb.order

end Mailbox
