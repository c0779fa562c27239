import Mathlib.Data.List.Basic

/-!
# Persistent queues

`PersistentQueue` of `crates/cljrs-value/src/collections/queue.rs`: a front list to take from, a rear
vector to add to and a stored count.

* `conj`, `peek`, `pop`, `iter` — the operations;
* `Op.fifo` — the same operations on a plain list;
* `Refines` — a queue stands for a list, kept by every operation (`Refines.step`);
* `queue_refines_fifo` — what is observed of a queue is what is observed of the list.
-/

namespace Clojurust

structure PersistentQueue (α : Type) where
  front : List α
  rear : List α
  count : Nat

namespace PersistentQueue

variable {α : Type} {q : PersistentQueue α} {l : List α}

def empty : PersistentQueue α := ⟨[], [], 0⟩

def isEmpty (q : PersistentQueue α) : Bool := q.count == 0

def conj (q : PersistentQueue α) (val : α) : PersistentQueue α :=
  ⟨q.front, q.rear ++ [val], q.count + 1⟩

def peek (q : PersistentQueue α) : Option α :=
  if q.front.isEmpty then q.rear[0]? else q.front.head?

def pop (q : PersistentQueue α) : Option (PersistentQueue α) :=
  if q.count = 0 then none
  else if ¬ q.front.isEmpty then
    -- when the front is used up, the rear takes its place
    if q.front.tail.isEmpty ∧ ¬ q.rear.isEmpty then some ⟨q.rear, [], q.count - 1⟩
    else some ⟨q.front.tail, q.rear, q.count - 1⟩
  else some ⟨q.rear.tail, [], q.count - 1⟩

def iter (q : PersistentQueue α) : List α := q.front ++ q.rear

inductive Op (α : Type) where
  | conj (val : α)
  | pop

/-- Queues are values: whoever pops an empty one gets `None` and still has the queue. -/
def Op.apply (q : PersistentQueue α) : Op α → PersistentQueue α
  | conj val => q.conj val
  | pop => q.pop.getD q

/-- A plain list, oldest element first. -/
def Op.fifo (l : List α) : Op α → List α
  | conj val => l ++ [val]
  | pop => l.tail

/-- The queue holds the elements of the list, and its count is that of its two parts. -/
structure Refines (q : PersistentQueue α) (l : List α) : Prop where
  iter : q.iter = l
  count : q.count = q.front.length + q.rear.length

theorem Refines.count_eq (h : Refines q l) : q.count = l.length := by
  rw [h.count, ← h.iter, PersistentQueue.iter, List.length_append]

theorem Refines.peek_eq (h : Refines q l) : q.peek = l.head? := by
  rw [← h.iter, peek, PersistentQueue.iter]
  cases q.front with
  | nil => exact List.head?_eq_getElem?.symm
  | cons => rfl

theorem Refines.pop_eq_none_iff (h : Refines q l) : q.pop = none ↔ l = [] := by
  rw [← List.length_eq_zero_iff, ← h.count_eq, pop]
  split_ifs <;> simp [*]

/-- A pop takes the oldest element, whichever part it is in. -/
theorem Refines.pop (h : Refines q l) {q' : PersistentQueue α} (hpop : q.pop = some q') :
    Refines q' l.tail := by
  obtain ⟨rfl, hcount⟩ := h
  obtain ⟨front, rear, count⟩ := q
  simp only [PersistentQueue.pop, PersistentQueue.iter] at hcount hpop ⊢
  cases front with
  | nil =>
    split_ifs at hpop with hzero hfront
    · cases hpop
      exact ⟨List.append_nil _, by simp [hcount]⟩
    · exact absurd rfl hfront
    · exact absurd rfl hfront
  | cons x tail =>
    have hlength : count - 1 = tail.length + rear.length := by
      rw [hcount, List.length_cons]
      omega
    split_ifs at hpop with hzero hfront hmove
    · cases hfront
    · cases hpop
      obtain rfl : tail = [] := List.isEmpty_iff.mp hmove.1
      exact ⟨List.append_nil rear, by simpa using hlength⟩
    · cases hpop
      exact ⟨rfl, hlength⟩

theorem Refines.step (h : Refines q l) (op : Op α) : Refines (op.apply q) (op.fifo l) := by
  cases op with
  | conj val =>
    constructor
    · rw [← h.iter]
      exact (List.append_assoc ..).symm
    · simp [Op.apply, PersistentQueue.conj, h.count, Nat.add_assoc]
  | pop =>
    simp only [Op.apply, Op.fifo]
    cases hpop : q.pop with
    | none =>
      obtain rfl := h.pop_eq_none_iff.mp hpop
      exact h
    | some q' => exact h.pop hpop

/-- A whole history, by induction on the operations. -/
theorem Refines.run (h : Refines q l) (ops : List (Op α)) :
    Refines (ops.foldl Op.apply q) (ops.foldl Op.fifo l) := by
  induction ops generalizing q l with
  | nil => exact h
  | cons op ops ih => exact ih (h.step op)

/-- **A queue is a list that is added to at its end and taken from at its start**, after any sequence
of operations on the empty queue. -/
theorem queue_refines_fifo (ops : List (Op α)) :
    let q : PersistentQueue α := ops.foldl Op.apply empty
    let l : List α := ops.foldl Op.fifo []
    q.peek = l.head? ∧ q.count = l.length ∧ (q.isEmpty = true ↔ l = []) ∧ q.iter = l ∧
      (q.pop = none ↔ l = []) ∧ q.count = q.front.length + q.rear.length := by
  intro q l
  have h : Refines q l := Refines.run ⟨rfl, rfl⟩ ops
  refine ⟨h.peek_eq, h.count_eq, ?_, h.iter, h.pop_eq_none_iff, h.count⟩
  rw [isEmpty, beq_iff_eq, h.count_eq, List.length_eq_zero_iff]

end PersistentQueue

end Clojurust
