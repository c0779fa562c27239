import Clojurust.Lib.Interleaving

/-!
# Gas meters

Execution credits (`crates/cljrs-env/src/gas.rs`). A meter is a shared cell of remaining credits; a
thread has a stack of installed meters, and a checkpoint charges its cost to all of them. The
atomic operations of the checkpoints of several threads interleave in any order.

* `Scope`, `Thread` — the stacks `ACTIVE` and `EXHAUSTED` of a thread;
* `machine` — installing and uninstalling meters, and `charge` step by step;
* `Checkpoint` — what a call of `charge` did, as the history records it;
* `Next`, `next_sound` — everything a step can do.

Capturing a stack for a task and installing it around a poll (`active_meters`, `install_meters` in
`spawn_future` of `crates/cljrs-async/src/eval_async.rs`) are installations and uninstallations of
the thread that polls (`pollEvents`).
-/

namespace Clojurust.Gas

open Interleaving

/-! ## Model -/

/-- An installed meter: the entries of `ACTIVE` and `EXHAUSTED` at one index. `id` is the number of
the guard that installed it. -/
structure Scope where
  id : Nat
  meter : Nat
  exhausted : Bool
  deriving DecidableEq

/-- Where a thread is in `charge`: reading meters, charging them, or, after a failure, marking those
that are short. -/
inductive Phase where
  | idle
  | checking (cost index : Nat)
  | charging (cost index : Nat)
  | marking (cost taken index : Nat)
  deriving DecidableEq

structure Thread where
  scopes : List Scope
  phase : Phase

/-- A finished call of `charge`: the scopes as it left them, how many of them it charged, and what
it returned. -/
structure Checkpoint where
  thread : Nat
  cost : Nat
  scopes : List Scope
  taken : Nat
  ok : Bool

/-- The credits left on each meter, the number of guards made so far and the finished checkpoints,
the newest first. -/
structure Shared where
  remaining : Nat → Nat
  guards : Nat
  history : List Checkpoint

inductive Label where
  | install (meter : Nat)
  | uninstall
  | charge (cost : Nat)
  | step

def checkedSub (remaining cost : Nat) : Option Nat :=
  if cost ≤ remaining then some (remaining - cost) else none

def isExhausted (scopes : List Scope) : Bool := scopes.any Scope.exhausted

def Shared.record (shared : Shared) (c : Checkpoint) : Shared :=
  { shared with history := c :: shared.history }

def Shared.pay (shared : Shared) (meter left : Nat) : Shared :=
  { shared with remaining := Function.update shared.remaining meter left }

/-- The flag of a scope whose meter cannot cover the cost is set. -/
def mark (shared : Shared) (cost : Nat) (scope : Scope) : Scope :=
  if shared.remaining scope.meter < cost then { scope with exhausted := true } else scope

def next (i : Nat) : Label → Shared → Thread → Option (Shared × Thread)
  | .install meter, shared, ⟨scopes, .idle⟩ =>
    some ({ shared with guards := shared.guards + 1 },
      ⟨scopes ++ [⟨shared.guards, meter, false⟩], .idle⟩)
  | .uninstall, shared, ⟨scopes, .idle⟩ => some (shared, ⟨scopes.dropLast, .idle⟩)
  | .charge cost, shared, ⟨scopes, .idle⟩ =>
    if isExhausted scopes then
      some (shared.record ⟨i, cost, scopes, 0, false⟩, ⟨scopes, .idle⟩)
    else if scopes.isEmpty then
      some (shared.record ⟨i, cost, scopes, 0, true⟩, ⟨scopes, .idle⟩)
    else some (shared, ⟨scopes, .checking cost 0⟩)
  | .step, shared, ⟨scopes, .checking cost index⟩ =>
    match scopes[index]? with
    | none => some (shared, ⟨scopes, .charging cost 0⟩)
    | some scope =>
      if shared.remaining scope.meter < cost then some (shared, ⟨scopes, .marking cost 0 0⟩)
      else some (shared, ⟨scopes, .checking cost (index + 1)⟩)
  | .step, shared, ⟨scopes, .charging cost index⟩ =>
    match scopes[index]? with
    | none => some (shared.record ⟨i, cost, scopes, index, true⟩, ⟨scopes, .idle⟩)
    | some scope =>
      match checkedSub (shared.remaining scope.meter) cost with
      | some left => some (shared.pay scope.meter left, ⟨scopes, .charging cost (index + 1)⟩)
      | none => some (shared, ⟨scopes, .marking cost index 0⟩)
  | .step, shared, ⟨scopes, .marking cost taken index⟩ =>
    match scopes[index]? with
    | none => some (shared.record ⟨i, cost, scopes, taken, false⟩, ⟨scopes, .idle⟩)
    | some scope =>
      some (shared, ⟨scopes.set index (mark shared cost scope), .marking cost taken (index + 1)⟩)
  | _, _, _ => none

/-- Threads with empty stacks are started at any time. -/
def machine : Machine Unit Shared Thread Label where
  start _ := ⟨[], .idle⟩
  next := next

/-- Meters with their credits, and no thread. -/
def fresh (credits : Nat → Nat) : State Shared Thread := ⟨⟨credits, 0, []⟩, []⟩

/-- A poll of a task that captured some meters, by a thread: they are installed, the task does
something, and the guards are dropped. -/
def pollEvents (thread : Nat) (captured : List Nat) (body : List (Event Unit Label)) :
    List (Event Unit Label) :=
  captured.map (fun meter => .step thread (.install meter)) ++ body ++
    captured.map (fun _ => .step thread .uninstall)

/-! ## Inversion -/

section

variable (i : Nat) (shared : Shared)

/-- Everything a step of a thread can do. -/
inductive Next : Thread → Shared → Thread → Prop where
  | install (scopes : List Scope) (meter : Nat) :
    Next ⟨scopes, .idle⟩ { shared with guards := shared.guards + 1 }
      ⟨scopes ++ [⟨shared.guards, meter, false⟩], .idle⟩
  | uninstall (scopes : List Scope) :
    Next ⟨scopes, .idle⟩ shared ⟨scopes.dropLast, .idle⟩
  | refuse (scopes : List Scope) (cost : Nat) (h : isExhausted scopes = true) :
    Next ⟨scopes, .idle⟩ (shared.record ⟨i, cost, scopes, 0, false⟩) ⟨scopes, .idle⟩
  | unmetered (cost : Nat) :
    Next ⟨[], .idle⟩ (shared.record ⟨i, cost, [], 0, true⟩) ⟨[], .idle⟩
  | start (scopes : List Scope) (cost : Nat) (h : isExhausted scopes = false) :
    Next ⟨scopes, .idle⟩ shared ⟨scopes, .checking cost 0⟩
  | enough (scopes : List Scope) (cost index : Nat) (scope : Scope)
      (hscope : scopes[index]? = some scope) (h : cost ≤ shared.remaining scope.meter) :
    Next ⟨scopes, .checking cost index⟩ shared ⟨scopes, .checking cost (index + 1)⟩
  | short (scopes : List Scope) (cost index : Nat) (scope : Scope)
      (hscope : scopes[index]? = some scope) (h : shared.remaining scope.meter < cost) :
    Next ⟨scopes, .checking cost index⟩ shared ⟨scopes, .marking cost 0 0⟩
  | checked (scopes : List Scope) (cost index : Nat) (h : scopes.length ≤ index) :
    Next ⟨scopes, .checking cost index⟩ shared ⟨scopes, .charging cost 0⟩
  | pay (scopes : List Scope) (cost index : Nat) (scope : Scope)
      (hscope : scopes[index]? = some scope) (h : cost ≤ shared.remaining scope.meter) :
    Next ⟨scopes, .charging cost index⟩
      (shared.pay scope.meter (shared.remaining scope.meter - cost))
      ⟨scopes, .charging cost (index + 1)⟩
  | lost (scopes : List Scope) (cost index : Nat) (scope : Scope)
      (hscope : scopes[index]? = some scope) (h : shared.remaining scope.meter < cost) :
    Next ⟨scopes, .charging cost index⟩ shared ⟨scopes, .marking cost index 0⟩
  | paid (scopes : List Scope) (cost index : Nat) (h : scopes.length ≤ index) :
    Next ⟨scopes, .charging cost index⟩ (shared.record ⟨i, cost, scopes, index, true⟩)
      ⟨scopes, .idle⟩
  | mark (scopes : List Scope) (cost taken index : Nat) (scope : Scope)
      (hscope : scopes[index]? = some scope) :
    Next ⟨scopes, .marking cost taken index⟩ shared
      ⟨scopes.set index (mark shared cost scope), .marking cost taken (index + 1)⟩
  | marked (scopes : List Scope) (cost taken index : Nat) (h : scopes.length ≤ index) :
    Next ⟨scopes, .marking cost taken index⟩
      (shared.record ⟨i, cost, scopes, taken, false⟩) ⟨scopes, .idle⟩

end

variable {i : Nat} {shared shared' : Shared} {c : Checkpoint}

theorem next_sound {label : Label} {thread thread' : Thread}
    (h : next i label shared thread = some (shared', thread')) :
    Next i shared thread shared' thread' := by
  obtain ⟨scopes, phase⟩ := thread
  cases phase with
  | idle =>
    cases label with
    | install meter =>
      cases h
      exact .install scopes meter
    | uninstall =>
      cases h
      exact .uninstall scopes
    | charge cost =>
      simp only [next] at h
      split at h
      · rename_i hexhausted
        cases h
        exact .refuse scopes cost hexhausted
      · rename_i hexhausted
        split at h
        · rename_i hempty
          cases h
          rw [List.isEmpty_iff] at hempty
          subst hempty
          exact .unmetered cost
        · cases h
          exact .start scopes cost (by simpa using hexhausted)
    | step => cases h
  | checking cost index =>
    cases label with
    | step =>
      simp only [next] at h
      split at h
      · rename_i hnone
        cases h
        exact .checked scopes cost index (List.getElem?_eq_none_iff.mp hnone)
      · rename_i scope hscope
        split at h
        · rename_i hshort
          cases h
          exact .short scopes cost index scope hscope hshort
        · rename_i henough
          cases h
          exact .enough scopes cost index scope hscope (Nat.not_lt.mp henough)
    | _ => cases h
  | charging cost index =>
    cases label with
    | step =>
      simp only [next, checkedSub] at h
      split at h
      · rename_i hnone
        cases h
        exact .paid scopes cost index (List.getElem?_eq_none_iff.mp hnone)
      · rename_i scope hscope
        by_cases henough : cost ≤ shared.remaining scope.meter
        · rw [if_pos henough] at h
          cases h
          exact .pay scopes cost index scope hscope henough
        · rw [if_neg henough] at h
          cases h
          exact .lost scopes cost index scope hscope (Nat.not_le.mp henough)
    | _ => cases h
  | marking cost taken index =>
    cases label with
    | step =>
      simp only [next] at h
      split at h
      · rename_i hnone
        cases h
        exact .marked scopes cost taken index (List.getElem?_eq_none_iff.mp hnone)
      · rename_i scope hscope
        cases h
        exact .mark scopes cost taken index scope hscope
    | _ => cases h

/-! ## What other threads see -/

/-- What a step of a thread does to the shared state: meters only go down, guards only get more, and
at most one checkpoint of the thread is added. -/
@[grind cases]
structure Later (i : Nat) (shared shared' : Shared) : Prop where
  remaining : ∀ meter, shared'.remaining meter ≤ shared.remaining meter
  guards : shared.guards ≤ shared'.guards
  history : shared'.history = shared.history ∨
    ∃ c, c.thread = i ∧ shared'.history = c :: shared.history

theorem Later.same (i : Nat) (shared : Shared) : Later i shared shared :=
  ⟨fun _ => Nat.le_refl _, Nat.le_refl _, .inl rfl⟩

theorem Later.record (i : Nat) (shared : Shared) (c : Checkpoint) (h : c.thread = i) :
    Later i shared (shared.record c) :=
  ⟨fun _ => Nat.le_refl _, Nat.le_refl _, .inr ⟨c, h, rfl⟩⟩

theorem Next.later {thread thread' : Thread}
    (h : Next i shared thread shared' thread') : Later i shared shared' := by
  cases h with
  | install => exact ⟨fun _ => Nat.le_refl _, Nat.le_succ _, .inl rfl⟩
  | pay scopes cost index scope =>
    refine ⟨?_, Nat.le_refl _, .inl rfl⟩
    intro meter
    by_cases hm : meter = scope.meter
    · subst hm
      simp [Shared.pay]
    · simp [Shared.pay, Function.update_of_ne hm]
  | refuse | unmetered | paid | marked => exact .record _ _ _ rfl
  | _ => exact .same _ _

end Clojurust.Gas
