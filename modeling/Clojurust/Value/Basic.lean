import Clojurust.Value.Collections
import Clojurust.Value.Number
import Mathlib.Algebra.Order.BigOperators.Group.List

/-!
# Values

The data constructors of `Value` (`crates/cljrs-value/src/value.rs`).

* `Value.children`, `Value.size` — the parts of a value, and a measure for recursion over them;
* `Value.valueToSeqVec` — the items of a sequential value.
-/

namespace Clojurust

open List

/-- A value made of data. A lazy seq is realised: it has the cell that holds it and the value that
its thunk gave, which is `nil` for a thunk that failed. -/
inductive Value where
  | nil
  | bool (b : Bool)
  | long (n : Int64)
  | double (x : F64)
  | bigInt (n : Int)
  | bigDecimal (d : BigDecimal)
  | ratio (r : ℚ)
  | char (c : Char)
  | str (s : String)
  | uuid (u : BitVec 128)
  | instant (ms : Int64)
  | symbol (s : Symbol)
  | keyword (k : Keyword)
  | list (items : List Value)
  | vector (items : List Value)
  | map (m : MapValue Value Value)
  | set (s : SetValue Value)
  | queue (front rear : List Value)
  | lazySeq (cell : Nat) (realized : Value)
  | cons (head tail : Value)
  | typeInstance (typeTag : String) (fields : MapValue Value Value)
  | withMeta (inner metadata : Value)
  | reduced (inner : Value)

/-! ## Parts and size -/

/-- The values directly inside a value, its metadata apart. -/
def Value.children : Value → List Value
  | list items | vector items => items
  | map m => m.members
  | set s => s.members
  | queue front rear => front ++ rear
  | lazySeq _ realized => [realized]
  | cons head tail => [head, tail]
  | typeInstance _ fields => fields.members
  | withMeta inner _ | reduced inner => [inner]
  | _ => []

mutual

/-- The number of constructors in a value, its metadata apart. -/
def Value.size : Value → Nat
  | .list items | .vector items => 1 + sizeList items
  | .map m => 1 + sizeMap m
  | .set s => 1 + sizeSet s
  | .queue front rear => 1 + sizeList front + sizeList rear
  | .lazySeq _ realized => 1 + realized.size
  | .cons head tail => 1 + head.size + tail.size
  | .typeInstance _ fields => 1 + sizeMap fields
  | .withMeta inner _ | .reduced inner => 1 + inner.size
  | _ => 1

def sizeMap : MapValue Value Value → Nat
  | .array entries => sizePairs entries
  | .hash ⟨index, order, _⟩ => sizeIndex index + sizeOrder order
  | .sorted tree => sizePairTree tree
  | .sortedBy pairs => sizePairs pairs

def sizeSet : SetValue Value → Nat
  | .hash ⟨index, order⟩ => sizeIndex index + sizeSetOrder order
  | .sorted tree => sizeTree tree
  | .sortedBy items => sizeList items

def sizeList : List Value → Nat
  | [] => 0
  | item :: items => item.size + sizeList items

def sizePairs : List (Value × Value) → Nat
  | [] => 0
  | (key, value) :: pairs => key.size + value.size + sizePairs pairs

def sizeIndex : List (Value × Nat) → Nat
  | [] => 0
  | (key, _) :: index => key.size + sizeIndex index

def sizeOrder : List (Nat × Value × Value) → Nat
  | [] => 0
  | (_, key, value) :: order => key.size + value.size + sizeOrder order

def sizeSetOrder : List (Nat × Value) → Nat
  | [] => 0
  | (_, key) :: order => key.size + sizeSetOrder order

def sizePairTree : Tree (Value × Value) → Nat
  | .leaf => 0
  | .node left (key, value) right =>
    sizePairTree left + (key.size + value.size) + sizePairTree right

def sizeTree : Tree Value → Nat
  | .leaf => 0
  | .node left entry right => sizeTree left + entry.size + sizeTree right

end

theorem sizeList_eq : ∀ items : List Value, sizeList items = (items.map Value.size).sum
  | [] => by simp [sizeList]
  | item :: items => by simp [sizeList, sizeList_eq items]

theorem sizePairs_eq : ∀ pairs : List (Value × Value),
    sizePairs pairs = ((pairs.flatMap (fun entry => [entry.1, entry.2])).map Value.size).sum
  | [] => by simp [sizePairs]
  | (key, value) :: pairs => by
    simp only [sizePairs, sizePairs_eq pairs, flatMap_cons, map_append, sum_append,
      map_cons, map_nil, sum_cons, sum_nil, Nat.add_zero]

theorem sizeIndex_eq : ∀ index : List (Value × Nat),
    sizeIndex index = ((index.map Prod.fst).map Value.size).sum
  | [] => by simp [sizeIndex]
  | (key, seq) :: index => by simp [sizeIndex, sizeIndex_eq index]

theorem sizeOrder_eq : ∀ order : List (Nat × Value × Value), sizeOrder order =
    ((order.flatMap (fun entry => [entry.2.1, entry.2.2])).map Value.size).sum
  | [] => by simp [sizeOrder]
  | (seq, key, value) :: order => by
    simp only [sizeOrder, sizeOrder_eq order, flatMap_cons, map_append, sum_append,
      map_cons, map_nil, sum_cons, sum_nil, Nat.add_zero]

theorem sizeSetOrder_eq : ∀ order : List (Nat × Value),
    sizeSetOrder order = ((order.map Prod.snd).map Value.size).sum
  | [] => by simp [sizeSetOrder]
  | (seq, key) :: order => by simp [sizeSetOrder, sizeSetOrder_eq order]

theorem sizePairTree_eq : ∀ tree : Tree (Value × Value), sizePairTree tree =
    ((tree.toList.flatMap (fun entry => [entry.1, entry.2])).map Value.size).sum
  | .leaf => by simp [sizePairTree, Tree.toList]
  | .node left (key, value) right => by
    simp only [sizePairTree, sizePairTree_eq left, sizePairTree_eq right, Tree.toList,
      flatMap_append, flatMap_cons, map_append, sum_append, map_cons,
      map_nil, sum_cons, sum_nil]
    omega

theorem sizeTree_eq : ∀ tree : Tree Value, sizeTree tree = (tree.toList.map Value.size).sum
  | .leaf => by simp [sizeTree, Tree.toList]
  | .node left entry right => by
    simp only [sizeTree, sizeTree_eq left, sizeTree_eq right, Tree.toList, map_append,
      sum_append, map_cons, sum_cons]
    omega

theorem sizeMap_eq (m : MapValue Value Value) : sizeMap m = (m.members.map Value.size).sum := by
  cases m with
  | array | sortedBy => simp only [sizeMap, MapValue.members, sizePairs_eq]
  | hash m =>
    simp only [sizeMap, MapValue.members, sizeIndex_eq, sizeOrder_eq, map_append, sum_append]
  | sorted => simp only [sizeMap, MapValue.members, sizePairTree_eq]

theorem sizeSet_eq (s : SetValue Value) : sizeSet s = (s.members.map Value.size).sum := by
  cases s with
  | hash s =>
    simp only [sizeSet, SetValue.members, sizeIndex_eq, sizeSetOrder_eq, map_append, sum_append]
  | sorted => simp only [sizeSet, SetValue.members, sizeTree_eq]
  | sortedBy => simp only [sizeSet, SetValue.members, sizeList_eq]

namespace Value

attribute [local simp] children

theorem size_eq (v : Value) : v.size = 1 + (v.children.map size).sum := by
  cases v <;>
    simp [size, sizeList_eq, sizeMap_eq, sizeSet_eq, Nat.add_assoc]

theorem size_pos (v : Value) : 0 < v.size := by
  rw [size_eq]
  omega

variable {v : Value} {P : Value → Prop}

theorem size_lt_of_mem {c : Value} (h : c ∈ v.children) : c.size < v.size := by
  have := le_sum_of_mem (mem_map_of_mem (f := size) h)
  rw [size_eq v]
  omega

/-! ## Sequences -/

/-- List, vector, lazy seq or cons. -/
def isSequential : Value → Bool
  | list _ | vector _ | lazySeq _ _ | cons _ _ => true
  | _ => false

/-- The items of the tail of a cons cell, up to the first tail of another kind. -/
def tailItems : Value → List Value
  | nil => []
  | list items => items
  | cons head tail => head :: tail.tailItems
  | lazySeq _ realized => realized.tailItems
  | _ => []

/-- `value_to_seq_vec`. -/
def valueToSeqVec : Value → List Value
  | lazySeq _ realized => realized.valueToSeqVec
  | list items | vector items => items
  | cons head tail => head :: tail.tailItems
  | _ => []

theorem forall_tailItems (hP : ∀ v, P v → ∀ c ∈ v.children, P c)
    (hv : P v) : ∀ x ∈ v.tailItems, P x := by
  fun_induction tailItems v with
  | case1 => simp
  | case2 items => exact hP _ hv
  | case3 head tail ih =>
    simp only [forall_mem_cons]
    exact ⟨hP _ hv head (by simp), ih (hP _ hv tail (by simp))⟩
  | case4 cell realized ih => exact ih (hP _ hv realized (by simp))
  | case5 => simp

theorem forall_valueToSeqVec (hP : ∀ v, P v → ∀ c ∈ v.children, P c)
    (hv : ∀ c ∈ v.children, P c) : ∀ x ∈ v.valueToSeqVec, P x := by
  fun_induction valueToSeqVec v with
  | case1 cell realized ih => exact ih (hP _ (hv realized (by simp)))
  | case2 | case3 => exact hv
  | case4 head tail =>
    simp only [forall_mem_cons]
    exact ⟨hv head (by simp), forall_tailItems hP (hv tail (by simp))⟩
  | case5 => simp

theorem size_lt_of_mem_valueToSeqVec {x : Value} (h : x ∈ v.valueToSeqVec) : x.size < v.size :=
  forall_valueToSeqVec (P := fun x => x.size < v.size)
    (fun _ hx _ hc => (size_lt_of_mem hc).trans hx) (fun _ hc => size_lt_of_mem hc) x h

end Value

end Clojurust
