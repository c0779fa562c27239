import Mathlib.Data.List.Find

/-!
# Persistent maps and sets: representations and lookup

The representations of `crates/cljrs-value/src/collections`, over any type of keys with its three
comparisons (`KeyOps`). Array maps and comparator maps search their entries with `==`, hash maps
and hash sets go through an index by the hash, sorted maps and sets descend a tree by the order.

* `MapValue.get`, `SetValue.contains` — the lookups;
* `MapValue.mapsEqual`, `SetValue.setsEqual` — equality of maps and of sets;
* `mapsEqual_congr`, `setsEqual_congr` — which comparisons a result depends on.
-/

namespace Clojurust

open List

/-- What a collection uses of its keys: `PartialEq`, `Hash` and `Ord`. -/
structure KeyOps (κ : Type) where
  eq : κ → κ → Bool
  hash : κ → UInt32
  cmp : κ → κ → Ordering

/-- The search tree of a sorted collection (`rpds::RedBlackTreeMapSync`). -/
inductive Tree (α : Type) where
  | leaf
  | node (left : Tree α) (entry : α) (right : Tree α)

namespace Tree

variable {α : Type}

def toList : Tree α → List α
  | leaf => []
  | node left entry right => left.toList ++ entry :: right.toList

/-- Descend the tree; `probe` compares the key searched with an entry. -/
def find (probe : α → Ordering) : Tree α → Option α
  | leaf => none
  | node left entry right =>
    match probe entry with
    | .lt => left.find probe
    | .eq => some entry
    | .gt => right.find probe

theorem mem_of_find {probe : α → Ordering} {x : α} : ∀ {t : Tree α},
    t.find probe = some x → x ∈ t.toList
  | node left entry right, h => by
    unfold find at h
    unfold toList
    split at h
    · exact mem_append_left _ (mem_of_find h)
    · grind
    · exact mem_append_right _ (.tail _ (mem_of_find h))

end Tree

/-- A hash map: an index from keys to insertion numbers, the entries in insertion order and the
number of the next key. The index keeps the key that came first, the entries the key that came
last. -/
structure PersistentHashMap (κ ν : Type) where
  index : List (κ × Nat)
  order : List (Nat × κ × ν)
  /-- A `u64` in the source, which it stays within while fewer than `2 ^ 64` pairs and updates went
  into the map (`MapValue.Within`). -/
  nextSeq : Nat

structure PersistentHashSet (κ : Type) where
  index : List (κ × Nat)
  order : List (Nat × κ)

inductive MapValue (κ ν : Type) where
  | array (entries : List (κ × ν))
  | hash (m : PersistentHashMap κ ν)
  | sorted (tree : Tree (κ × ν))
  | sortedBy (pairs : List (κ × ν))

inductive SetValue (κ : Type) where
  | hash (s : PersistentHashSet κ)
  | sorted (tree : Tree κ)
  | sortedBy (items : List κ)

/-! ## Lookup -/

section Lookup

variable {κ ν : Type}

/-- The entry of the index for a key (`rpds::HashTrieMapSync::get`). -/
def KeyOps.indexed (ops : KeyOps κ) (index : List (κ × Nat)) (key : κ) : Option (κ × Nat) :=
  index.find? (fun entry => ops.hash entry.1 == ops.hash key && ops.eq entry.1 key)

namespace MapValue

def count : MapValue κ ν → Nat
  | array entries => entries.length
  | hash m => m.index.length
  | sorted tree => tree.toList.length
  | sortedBy pairs => pairs.length

/-- The entries in the order of iteration. -/
def iter : MapValue κ ν → List (κ × ν)
  | array entries => entries
  | hash m => m.order.map Prod.snd
  | sorted tree => tree.toList
  | sortedBy pairs => pairs

def get (ops : KeyOps κ) (key : κ) : MapValue κ ν → Option ν
  | array entries => (entries.find? (fun entry => ops.eq entry.1 key)).map Prod.snd
  | hash m =>
    match ops.indexed m.index key with
    | none => none
    | some (_, seq) => (m.order.find? (fun entry => entry.1 == seq)).map (fun entry => entry.2.2)
  | sorted tree => (tree.find (fun entry => ops.cmp key entry.1)).map Prod.snd
  | sortedBy pairs => (pairs.find? (fun entry => ops.eq entry.1 key)).map Prod.snd

/-- `maps_equal`. -/
def mapsEqual (ops : KeyOps κ) (eq : ν → ν → Bool) (a b : MapValue κ ν) : Bool :=
  a.count == b.count && a.iter.all (fun entry =>
    match b.get ops entry.1 with
    | some bv => eq bv entry.2
    | none => false)

end MapValue

namespace SetValue

def count : SetValue κ → Nat
  | hash s => s.index.length
  | sorted tree => tree.toList.length
  | sortedBy items => items.length

def iter : SetValue κ → List κ
  | hash s => s.order.map Prod.snd
  | sorted tree => tree.toList
  | sortedBy items => items

def contains (ops : KeyOps κ) (key : κ) : SetValue κ → Bool
  | hash s => (ops.indexed s.index key).isSome
  | sorted tree => (tree.find (fun entry => ops.cmp key entry)).isSome
  | sortedBy items => items.any (fun item => ops.eq item key)

/-- `sets_equal`. -/
def setsEqual (ops : KeyOps κ) (a b : SetValue κ) : Bool :=
  a.count == b.count && a.iter.all (fun key => b.contains ops key)

end SetValue

end Lookup

/-! ## What a result depends on -/

section Members

variable {κ : Type}

/-- All keys and values that a map holds, those of its index included. -/
def MapValue.members : MapValue κ κ → List κ
  | array entries => entries.flatMap (fun entry => [entry.1, entry.2])
  | hash m => m.index.map Prod.fst ++ m.order.flatMap (fun entry => [entry.2.1, entry.2.2])
  | sorted tree => tree.toList.flatMap (fun entry => [entry.1, entry.2])
  | sortedBy pairs => pairs.flatMap (fun entry => [entry.1, entry.2])

def SetValue.members : SetValue κ → List κ
  | hash s => s.index.map Prod.fst ++ s.order.map Prod.snd
  | sorted tree => tree.toList
  | sortedBy items => items

variable {m : MapValue κ κ} {s : SetValue κ} {key : κ}

theorem MapValue.mem_members {entry : κ × κ} (h : entry ∈ m.iter) :
    entry.1 ∈ m.members ∧ entry.2 ∈ m.members := by
  have hpair : ∀ l : List (κ × κ), entry ∈ l →
      entry.1 ∈ l.flatMap (fun entry => [entry.1, entry.2]) ∧
        entry.2 ∈ l.flatMap (fun entry => [entry.1, entry.2]) := by
    intro l hl
    exact ⟨mem_flatMap.mpr ⟨entry, hl, by simp⟩, mem_flatMap.mpr ⟨entry, hl, by simp⟩⟩
  cases m with
  | array entries => exact hpair entries h
  | sorted tree => exact hpair tree.toList h
  | sortedBy pairs => exact hpair pairs h
  | hash m =>
    obtain ⟨entry', hmem, rfl⟩ := mem_map.mp h
    simp only [members, mem_append, mem_flatMap]
    grind

theorem SetValue.mem_members (h : key ∈ s.iter) : key ∈ s.members := by
  cases s with
  | hash s => exact mem_append_right _ h
  | sorted | sortedBy => exact h

theorem all_congr_of_mem {α : Type} {p q : α → Bool} {l : List α} (h : ∀ x ∈ l, p x = q x) :
    l.all p = l.all q := by grind

theorem any_congr_of_mem {α : Type} {p q : α → Bool} {l : List α} (h : ∀ x ∈ l, p x = q x) :
    l.any p = l.any q := by grind

variable {eq eq' : κ → κ → Bool} {hash : κ → UInt32} {cmp : κ → κ → Ordering}

theorem indexed_congr {index : List (κ × Nat)}
    (h : ∀ entry ∈ index, eq entry.1 key = eq' entry.1 key) :
    KeyOps.indexed ⟨eq, hash, cmp⟩ index key = KeyOps.indexed ⟨eq', hash, cmp⟩ index key := by
  refine find?_congr ?_
  grind

theorem MapValue.get_congr (h : ∀ x ∈ m.members, eq x key = eq' x key) :
    m.get ⟨eq, hash, cmp⟩ key = m.get ⟨eq', hash, cmp⟩ key := by
  have hiter : ∀ entry ∈ m.iter, eq entry.1 key = eq' entry.1 key :=
    fun entry hentry => h _ (mem_members hentry).1
  cases m with
  | array | sortedBy => exact congrArg (Option.map Prod.snd) (find?_congr hiter)
  | sorted => rfl
  | hash m =>
    have hindex : ∀ entry ∈ m.index, eq entry.1 key = eq' entry.1 key := fun entry hentry =>
      h _ (mem_append_left _ (mem_map_of_mem hentry))
    simp only [get]
    rw [indexed_congr hindex]

theorem SetValue.contains_congr (h : ∀ x ∈ s.members, eq x key = eq' x key) :
    s.contains ⟨eq, hash, cmp⟩ key = s.contains ⟨eq', hash, cmp⟩ key := by
  cases s with
  | sortedBy =>
    simp only [contains, any_eq_not_all_not]
    rw [all_congr_of_mem (fun x hx => by rw [h x hx])]
  | sorted => rfl
  | hash s =>
    have hindex : ∀ entry ∈ s.index, eq entry.1 key = eq' entry.1 key := fun entry hentry =>
      h _ (mem_append_left _ (mem_map_of_mem hentry))
    simp only [contains]
    rw [indexed_congr hindex]

theorem MapValue.mem_of_get {ops : KeyOps κ} {value : κ}
    (h : m.get ops key = some value) : ∃ k, (k, value) ∈ m.iter := by
  cases m with
  | array | sortedBy =>
    obtain ⟨entry, hfind, rfl⟩ := Option.map_eq_some_iff.mp h
    exact ⟨entry.1, mem_of_find?_eq_some hfind⟩
  | sorted =>
    obtain ⟨entry, hfind, rfl⟩ := Option.map_eq_some_iff.mp h
    exact ⟨entry.1, Tree.mem_of_find hfind⟩
  | hash m =>
    simp only [get] at h
    split at h
    · cases h
    · obtain ⟨entry, hfind, rfl⟩ := Option.map_eq_some_iff.mp h
      exact ⟨entry.2.1, mem_map_of_mem (mem_of_find?_eq_some hfind)⟩

theorem MapValue.mapsEqual_congr {a b : MapValue κ κ}
    (h : ∀ x ∈ b.members, ∀ y ∈ a.members, eq x y = eq' x y) :
    a.mapsEqual ⟨eq, hash, cmp⟩ eq b = a.mapsEqual ⟨eq', hash, cmp⟩ eq' b := by
  refine congrArg _ (all_congr_of_mem ?_)
  intro entry hentry
  have hmem := mem_members hentry
  rw [get_congr (fun x hx => h x hx entry.1 hmem.1)]
  cases hget : b.get ⟨eq', hash, cmp⟩ entry.1 with
  | none => rfl
  | some value =>
    obtain ⟨k, hk⟩ := mem_of_get hget
    exact h value (mem_members hk).2 entry.2 hmem.2

theorem SetValue.setsEqual_congr {a b : SetValue κ}
    (h : ∀ x ∈ b.members, ∀ y ∈ a.members, eq x y = eq' x y) :
    a.setsEqual ⟨eq, hash, cmp⟩ b = a.setsEqual ⟨eq', hash, cmp⟩ b := by
  refine congrArg _ (all_congr_of_mem ?_)
  intro key hkey
  exact contains_congr (fun x hx => h x hx key (mem_members hkey))

end Members

end Clojurust
