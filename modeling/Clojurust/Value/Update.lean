import Clojurust.Lib.InsertionOrder
import Clojurust.Lib.SortedTable
import Clojurust.Value.Lawful

/-!
# Updates of maps

`assoc`, `dissoc` and `from_pairs` of `crates/cljrs-value/src/collections` and of `MapValue`. A map
starts as an array of entries; with more than `threshold` of them it becomes a hash map, whose
index and entries are linked by the numbers of a counter.

* `MapValue.assoc`, `MapValue.dissoc`, `MapValue.fromPairs`, `MapValue.run`;
* `MapValue.Linked` — what the updates keep of a representation;
* `MapValue.Follows.run` — a map follows the insertion-ordered finite map of its history.
-/

namespace Clojurust

open Matching InsertionOrder List

variable {κ ν : Type}

/-! ## Array maps -/

/-- `THRESHOLD`: the most entries of an array map. -/
def threshold : Nat := 8

/-- The result of `PersistentArrayMap::assoc`. -/
inductive AssocResult (κ ν : Type) where
  | array (entries : List (κ × ν))
  | promote (pairs : List (κ × ν))

/-- The value of the first equal key is replaced, the key stays. -/
def replaceFirst (ops : KeyOps κ) (key : κ) (value : ν) : List (κ × ν) → Option (List (κ × ν))
  | [] => none
  | (k, v) :: rest =>
    if ops.eq k key then some ((k, value) :: rest)
    else (replaceFirst ops key value rest).map (fun rest' => (k, v) :: rest')

/-- Replace the value of an equal key or append the pair. -/
def replaceOrPush (ops : KeyOps κ) (pairs : List (κ × ν)) (pair : κ × ν) : List (κ × ν) :=
  match replaceFirst ops pair.1 pair.2 pairs with
  | some pairs' => pairs'
  | none => pairs ++ [pair]

namespace PersistentArrayMap

def assoc (ops : KeyOps κ) (key : κ) (value : ν) (entries : List (κ × ν)) : AssocResult κ ν :=
  match replaceFirst ops key value entries with
  | some entries' => .array entries'
  | none =>
    let entries' := entries ++ [(key, value)]
    if entries'.length > threshold then .promote entries' else .array entries'

def dissoc (ops : KeyOps κ) (key : κ) : List (κ × ν) → List (κ × ν)
  | [] => []
  | (k, v) :: rest => if ops.eq k key then rest else (k, v) :: dissoc ops key rest

/-- The loop of `from_pairs`: after a promotion the other pairs go into the promoted ones. -/
def fromPairsLoop (ops : KeyOps κ) (entries : List (κ × ν)) : List (κ × ν) → AssocResult κ ν
  | [] => .array entries
  | (k, v) :: pairs =>
    match assoc ops k v entries with
    | .array entries' => fromPairsLoop ops entries' pairs
    | .promote promoted => .promote (pairs.foldl (replaceOrPush ops) promoted)

def fromPairs (ops : KeyOps κ) (pairs : List (κ × ν)) : AssocResult κ ν :=
  fromPairsLoop ops [] pairs

end PersistentArrayMap

/-! ## Hash maps -/

namespace PersistentHashMap

def empty : PersistentHashMap κ ν := ⟨[], [], 0⟩

/-- `rpds::HashTrieMapSync::remove`. -/
def unindex (ops : KeyOps κ) (index : List (κ × Nat)) (key : κ) : List (κ × Nat) :=
  index.eraseP (fun entry => ops.hash entry.1 == ops.hash key && ops.eq entry.1 key)

def assoc (ops : KeyOps κ) (key : κ) (value : ν) (m : PersistentHashMap κ ν) :
    PersistentHashMap κ ν :=
  match ops.indexed m.index key with
  | some (_, seq) => { m with order := SortedTable.insertEntry seq (key, value) m.order }
  | none =>
    { index := m.index ++ [(key, m.nextSeq)]
      order := SortedTable.insertEntry m.nextSeq (key, value) m.order
      nextSeq := m.nextSeq + 1 }

def dissoc (ops : KeyOps κ) (key : κ) (m : PersistentHashMap κ ν) : PersistentHashMap κ ν :=
  match ops.indexed m.index key with
  | some (_, seq) =>
    { m with
      index := unindex ops m.index key
      order := m.order.filter (fun entry => entry.1 != seq) }
  | none => m

def fromPairs (ops : KeyOps κ) (pairs : List (κ × ν)) : PersistentHashMap κ ν :=
  pairs.foldl (fun m pair => m.assoc ops pair.1 pair.2) empty

end PersistentHashMap

/-! ## Sorted maps -/

namespace Tree

variable {α : Type}

/-- `rpds::RedBlackTreeMapSync::insert`, up to balancing. -/
def insert (probe : α → Ordering) (entry : α) : Tree α → Tree α
  | leaf => node leaf entry leaf
  | node left e right =>
    match probe e with
    | .lt => node (left.insert probe entry) e right
    | .eq => node left entry right
    | .gt => node left e (right.insert probe entry)

def join : Tree α → Tree α → Tree α
  | leaf, t => t
  | node left entry right, t => node left entry (right.join t)

/-- `rpds::RedBlackTreeMapSync::remove`, up to balancing. -/
def remove (probe : α → Ordering) : Tree α → Tree α
  | leaf => leaf
  | node left e right =>
    match probe e with
    | .lt => node (left.remove probe) e right
    | .eq => left.join right
    | .gt => node left e (right.remove probe)

end Tree

/-! ## Maps -/

namespace MapValue

def empty : MapValue κ ν := array []

/-- A promoted map is built anew from its pairs. -/
def ofResult (ops : KeyOps κ) : AssocResult κ ν → MapValue κ ν
  | .array entries => array entries
  | .promote pairs => hash (PersistentHashMap.fromPairs ops pairs)

def fromPairs (ops : KeyOps κ) (pairs : List (κ × ν)) : MapValue κ ν :=
  ofResult ops (PersistentArrayMap.fromPairs ops pairs)

def assoc (ops : KeyOps κ) (key : κ) (value : ν) : MapValue κ ν → MapValue κ ν
  | array entries => ofResult ops (PersistentArrayMap.assoc ops key value entries)
  | hash m => hash (m.assoc ops key value)
  | sorted tree => sorted (tree.insert (fun entry => ops.cmp key entry.1) (key, value))
  | sortedBy pairs => sortedBy (replaceOrPush ops pairs (key, value))

def dissoc (ops : KeyOps κ) (key : κ) : MapValue κ ν → MapValue κ ν
  | array entries => array (PersistentArrayMap.dissoc ops key entries)
  | hash m => hash (m.dissoc ops key)
  | sorted tree => sorted (tree.remove (fun entry => ops.cmp key entry.1))
  | sortedBy pairs => sortedBy (pairs.filter (fun entry => !ops.eq entry.1 key))

def containsKey (ops : KeyOps κ) (key : κ) : MapValue κ ν → Bool
  | array entries => (get ops key (array entries)).isSome
  | hash m => (ops.indexed m.index key).isSome
  | sorted tree => (tree.find (fun entry => ops.cmp key entry.1)).isSome
  | sortedBy pairs => pairs.any (fun entry => ops.eq entry.1 key)

def step (ops : KeyOps κ) (m : MapValue κ ν) : Op κ ν → MapValue κ ν
  | .assoc key value => m.assoc ops key value
  | .dissoc key => m.dissoc ops key

/-- The map after a sequence of updates. -/
def run (ops : KeyOps κ) (m : MapValue κ ν) (operations : List (Op κ ν)) : MapValue κ ν :=
  operations.foldl (step ops) m

end MapValue

/-! ## Edits of the entries -/

section Arrays

variable {ops : KeyOps κ}

variable {key : κ}

variable (ops key) in
theorem replaceFirst_spec (value : ν) : ∀ l : List (κ × ν),
    (∃ l1 k w l2, l = l1 ++ (k, w) :: l2 ∧ ops.eq k key = true ∧
      replaceFirst ops key value l = some (l1 ++ (k, value) :: l2)) ∨
    (replaceFirst ops key value l = none ∧ ∀ e ∈ l, ops.eq e.1 key = false)
  | [] => .inr ⟨rfl, forall_mem_nil _⟩
  | (k, v) :: rest => by
    unfold replaceFirst
    split
    · rename_i heq
      exact .inl ⟨[], k, v, rest, rfl, heq, rfl⟩
    · rename_i hne
      rcases replaceFirst_spec value rest with ⟨l1, k', w, l2, rfl, heq, hrest⟩ | ⟨hrest, hall⟩
      · exact .inl ⟨(k, v) :: l1, k', w, l2, rfl, heq, by rw [hrest]; rfl⟩
      · exact .inr ⟨by rw [hrest]; rfl, forall_mem_cons.mpr ⟨Bool.eq_false_iff.mpr hne, hall⟩⟩

theorem edit_replaceOrPush (l : List (κ × ν)) (key : κ) (value : ν) :
    Edit ops.eq (.assoc key value) l (replaceOrPush ops l (key, value)) := by
  unfold replaceOrPush
  rcases replaceFirst_spec ops key value l with
    ⟨l1, k, w, l2, rfl, heq, hsome⟩ | ⟨hnone, hall⟩
  · rw [hsome]
    exact Edit.overwrite key k k value w l1 l2 heq (.inl rfl)
  · rw [hnone]
    exact Edit.append key value l hall

/-- The pairs of a result, whether or not it is promoted. -/
def AssocResult.pairs : AssocResult κ ν → List (κ × ν)
  | array entries => entries
  | promote pairs => pairs

theorem PersistentArrayMap.assoc_pairs (key : κ) (value : ν) (entries : List (κ × ν)) :
    (assoc ops key value entries).pairs = replaceOrPush ops entries (key, value) := by
  unfold assoc replaceOrPush
  cases hreplace : replaceFirst ops key value entries with
  | some => rfl
  | none =>
    dsimp only
    split <;> rfl

theorem PersistentArrayMap.fromPairsLoop_pairs : ∀ (pairs entries : List (κ × ν)),
    (fromPairsLoop ops entries pairs).pairs = pairs.foldl (replaceOrPush ops) entries
  | [], _ => rfl
  | (k, v) :: pairs, entries => by
    rw [foldl_cons, ← assoc_pairs]
    unfold fromPairsLoop
    cases hassoc : assoc ops k v entries with
    | array entries' => exact fromPairsLoop_pairs pairs entries'
    | promote => rfl

theorem PersistentArrayMap.dissoc_eq_filter {K : Set κ} (hequiv : EquivOn ops.eq K)
    (hkey : key ∈ K) : ∀ {entries : List (κ × ν)}, (∀ e ∈ entries, e.1 ∈ K) →
    entries.Pairwise (fun e e' => ops.eq e.1 e'.1 = false) →
    dissoc ops key entries = entries.filter (fun e => !ops.eq e.1 key)
  | [], _, _ => rfl
  | (k, v) :: rest, hK, hdistinct => by
    obtain ⟨hhead, htail⟩ := pairwise_cons.mp hdistinct
    rw [forall_mem_cons] at hK
    unfold dissoc
    split
    · rename_i heq
      rw [filter_cons_of_neg (by simp [heq]), eq_comm, filter_eq_self]
      intro e he
      rw [Bool.not_eq_true', ← Bool.not_eq_true]
      have hkK : k ∈ K := hK.1
      grind
    · rename_i heq
      rw [filter_cons_of_pos (by simp [heq]), dissoc_eq_filter hequiv hkey hK.2 htail]

end Arrays

/-! ## The numbers of a hash map -/

/-- The index belongs to the entries, and the entries ascend by numbers that the counter has
passed. -/
structure PersistentHashMap.Linked (ops : KeyOps κ) (K : Set κ) (m : PersistentHashMap κ ν) :
    Prop where
  indexes : ops.Indexes m.index (m.order.map (fun entry => (entry.1, entry.2.1)))
  ascending : m.order.Pairwise (fun o o' => o.1 < o'.1)
  below : ∀ o ∈ m.order, o.1 < m.nextSeq
  indexMem : ∀ e ∈ m.index, e.1 ∈ K
  orderMem : ∀ o ∈ m.order, o.2.1 ∈ K

theorem eraseP_eq_filter {α : Type} {p : α → Bool} {number : α → Nat} {x : α} : ∀ {l : List α},
    (l.map number).Nodup → l.find? p = some x →
    l.eraseP p = l.filter (fun y => number y != number x)
  | y :: l, hnodup, hfind => by
    obtain ⟨hy, hl⟩ := nodup_cons.mp hnodup
    by_cases hp : p y = true
    · rw [find?_cons_of_pos hp] at hfind
      cases hfind
      rw [eraseP_cons_of_pos hp, filter_cons_of_neg (by simp), eq_comm, filter_eq_self]
      grind
    · rw [find?_cons_of_neg hp] at hfind
      have hne : number y ≠ number x := by
        intro heq
        exact hy (heq ▸ mem_map_of_mem (mem_of_find?_eq_some hfind))
      rw [eraseP_cons_of_neg hp, filter_cons_of_pos (by simpa using hne), eraseP_eq_filter hl hfind]

namespace PersistentHashMap

/-- The entries in insertion order. -/
def entries (m : PersistentHashMap κ ν) : List (κ × ν) := m.order.map Prod.snd

theorem linked_empty {ops : KeyOps κ} {K : Set κ} :
    (empty : PersistentHashMap κ ν).Linked ops K where
  indexes := ⟨.nil, .nil, by simp [empty], .nil⟩
  ascending := .nil
  below := by simp [empty]
  indexMem := by simp [empty]
  orderMem := by simp [empty]

/-- The index has the keys of the entries. -/
def Fresh (m : PersistentHashMap κ ν) : Prop :=
  m.index = m.order.map (fun entry => (entry.2.1, entry.1))

section Linked

variable {ops : KeyOps κ} {K : Set κ} (hops : ops.Sound K)
  {m : PersistentHashMap κ ν} (h : m.Linked ops K) {key : κ} (hkey : key ∈ K)

include hops h hkey

theorem Linked.indexed_iff (seq : Nat) : (∃ k, ops.indexed m.index key = some (k, seq)) ↔
      ∃ o ∈ m.order, o.1 = seq ∧ ops.eq o.2.1 key = true := by
  have hkeys : ∀ k ∈ m.order.map (fun entry => (entry.1, entry.2.1)), k.2 ∈ K := by
    intro k hk
    obtain ⟨o, ho, rfl⟩ := mem_map.mp hk
    exact h.orderMem o ho
  rw [h.indexes.indexed_iff hops h.indexMem hkeys hkey seq]
  simp

theorem Linked.isSome_iff :
    (ops.indexed m.index key).isSome = true ↔ ∃ e ∈ m.entries, ops.eq e.1 key = true := by
  rw [Option.isSome_iff_exists]
  constructor
  · rintro ⟨⟨k, seq⟩, hfind⟩
    obtain ⟨o, ho, -, heq⟩ := (h.indexed_iff hops hkey seq).mp ⟨k, hfind⟩
    exact ⟨o.2, mem_map_of_mem ho, heq⟩
  · rintro ⟨e, he, heq⟩
    obtain ⟨o, ho, rfl⟩ := mem_map.mp he
    obtain ⟨k, hk⟩ := (h.indexed_iff hops hkey o.1).mpr ⟨o, ho, rfl, heq⟩
    exact ⟨(k, o.1), hk⟩

theorem Linked.eq_none_iff :
    ops.indexed m.index key = none ↔ ∀ e ∈ m.entries, ops.eq e.1 key = false := by
  rw [← Option.not_isSome_iff_eq_none, h.isSome_iff hops hkey]
  simp

variable {k : κ} {seq : Nat} {value : ν}

theorem Linked.number_eq_iff
    (hsome : ops.indexed m.index key = some (k, seq)) {o : Nat × κ × ν} (ho : o ∈ m.order) :
    o.1 = seq ↔ ops.eq o.2.1 key = true := by
  constructor
  · rintro rfl
    obtain ⟨o', ho', hseq, heq⟩ := (h.indexed_iff hops hkey o.1).mp ⟨k, hsome⟩
    have hsame : o' = o := by
      by_contra hne
      rcases pairwise_or h.ascending ho' ho hne with hlt | hlt <;> omega
    rwa [hsame] at heq
  · intro heq
    obtain ⟨k', hk'⟩ := (h.indexed_iff hops hkey o.1).mpr ⟨o, ho, rfl, heq⟩
    grind

theorem Linked.assoc_present (value : ν) (hsome : ops.indexed m.index key = some (k, seq)) :
    ∃ l k' w l', m.order = l ++ (seq, k', w) :: l' ∧ ops.eq k' key = true ∧
      (m.assoc ops key value).order = l ++ (seq, key, value) :: l' := by
  obtain ⟨⟨seq', k', w⟩, ho, rfl, heq⟩ := (h.indexed_iff hops hkey seq).mp ⟨k, hsome⟩
  obtain ⟨l, l', hsplit⟩ := append_of_mem ho
  refine ⟨l, k', w, l', hsplit, heq, ?_⟩
  have hbefore : ∀ o ∈ l, compare seq' o.1 = .gt := by
    intro o hol
    have hasc := h.ascending
    rw [hsplit, pairwise_append] at hasc
    exact Nat.compare_eq_gt.mpr (hasc.2.2 o hol _ (.head _))
  simp only [assoc, hsome, hsplit]
  exact SortedTable.insertEntry_of_mem hbefore

omit hops hkey in
theorem Linked.assoc_absent (hnone : ops.indexed m.index key = none) : m.assoc ops key value =
      ⟨m.index ++ [(key, m.nextSeq)], m.order ++ [(m.nextSeq, key, value)], m.nextSeq + 1⟩ := by
  have hlast : SortedTable.insertEntry m.nextSeq (key, value) m.order =
      m.order ++ [(m.nextSeq, key, value)] :=
    SortedTable.insertEntry_of_gt fun o ho => Nat.compare_eq_gt.mpr (h.below o ho)
  simp only [assoc, hnone, hlast]

theorem Linked.edit_assoc (value : ν) :
    Edit ops.eq (.assoc key value) m.entries (m.assoc ops key value).entries := by
  cases hfind : ops.indexed m.index key with
  | none =>
    rw [h.assoc_absent hfind]
    simp only [entries, map_append, map_cons, map_nil]
    exact Edit.append _ _ _ ((h.eq_none_iff hops hkey).mp hfind)
  | some =>
    obtain ⟨l, k', w, l', hsplit, heq, hassoc⟩ :=
      h.assoc_present hops hkey value hfind
    simp only [entries, hsplit, hassoc, map_append, map_cons]
    exact Edit.overwrite key k' key value w _ _ heq (.inr rfl)

omit hops hkey in
theorem Linked.index_below {e : κ × Nat} (he : e ∈ m.index) : e.2 < m.nextSeq := by
  obtain ⟨k, hk, hnumber⟩ := h.indexes.exists_key he
  obtain ⟨o, ho, rfl⟩ := mem_map.mp hk
  have hbelow := h.below o ho
  omega

theorem Linked.assoc_of_none (hnone : ops.indexed m.index key = none) :
    (m.assoc ops key value).Linked ops K := by
  have hascending : (m.order ++ [(m.nextSeq, key, value)]).Pairwise (fun o o' => o.1 < o'.1) := by
    refine pairwise_append.mpr ⟨h.ascending, pairwise_singleton _ _, ?_⟩
    intro o ho o' ho'
    obtain rfl := mem_singleton.mp ho'
    exact h.below o ho
  rw [h.assoc_absent hnone]
  constructor
  · constructor
    · simp only [map_append, map_cons, map_nil]
      exact h.indexes.perm.append_right _
    · grind
    · intro e he k hk hnumber
      simp only [map_append, map_cons, map_nil, mem_append, mem_singleton] at he hk
      rcases he with he | rfl
      · rcases hk with hk | rfl
        · exact h.indexes.agree e he k hk hnumber
        · have hbelow := h.index_below he
          omega
      · rcases hk with hk | rfl
        · obtain ⟨o, ho, rfl⟩ := mem_map.mp hk
          have hbelow := h.below o ho
          omega
        · exact ⟨rfl, hops.equiv.refl key hkey⟩
    · refine pairwise_append.mpr ⟨h.indexes.distinct, pairwise_singleton _ _, ?_⟩
      intro e he e' he'
      obtain rfl := mem_singleton.mp he'
      have hmiss := find?_eq_none.mp hnone e he
      simpa using hmiss
  · exact hascending
  · exact forall_mem_append.mpr ⟨fun o ho => Nat.lt_succ_of_lt (h.below o ho),
      forall_mem_singleton.mpr (Nat.lt_succ_self _)⟩
  · exact forall_mem_append.mpr ⟨h.indexMem, forall_mem_singleton.mpr hkey⟩
  · exact forall_mem_append.mpr ⟨h.orderMem, forall_mem_singleton.mpr hkey⟩

theorem Linked.assoc_of_some (hsome : ops.indexed m.index key = some (k, seq)) :
    (m.assoc ops key value).Linked ops K := by
  obtain ⟨l, k', w, l', hsplit, heq, horder⟩ :=
    h.assoc_present hops hkey value hsome
  have hindex : (m.assoc ops key value).index = m.index := by simp only [assoc, hsome]
  have hnext : (m.assoc ops key value).nextSeq = m.nextSeq := by simp only [assoc, hsome]
  have hnumbers : (m.assoc ops key value).order.map Prod.fst = m.order.map Prod.fst := by
    simp only [horder, hsplit, map_append, map_cons]
  have hk'K : k' ∈ K := h.orderMem (seq, k', w) (by simp [hsplit])
  -- an entry of the new order is one of the old or the one written
  have hentry : ∀ o ∈ (m.assoc ops key value).order, o ∈ m.order ∨ o = (seq, key, value) := by
    intro o ho
    rw [horder] at ho
    simp only [hsplit, mem_append, mem_cons] at ho ⊢
    rcases ho with ho | ho | ho
    · exact .inl (.inl ho)
    · exact .inr ho
    · exact .inl (.inr (.inr ho))
  constructor
  · constructor
    · simp only [hindex, map_map, Function.comp_def, hnumbers]
      have hperm := h.indexes.perm
      simpa only [map_map, Function.comp_def] using hperm
    · have hnodup := h.indexes.nodup
      grind
    · intro e he o ho hnumber
      rw [hindex] at he
      obtain ⟨o', ho', rfl⟩ := mem_map.mp ho
      rcases hentry o' ho' with hold | rfl
      · exact h.indexes.agree e he _
          (mem_map_of_mem (f := fun entry => (entry.1, entry.2.1)) hold) hnumber
      · have hold : (seq, k') ∈ m.order.map (fun entry => (entry.1, entry.2.1)) :=
          mem_map.mpr ⟨(seq, k', w), by simp [hsplit], rfl⟩
        obtain ⟨-, hagree⟩ := h.indexes.agree e he _ hold hnumber
        have heK := h.indexMem e he
        grind
    · rw [hindex]
      exact h.indexes.distinct
  · have hasc := pairwise_map.mpr h.ascending
    grind
  · intro o ho
    rw [hnext]
    rcases hentry o ho with hold | rfl
    · exact h.below o hold
    · exact h.below (seq, k', w) (by simp [hsplit])
  · rw [hindex]
    exact h.indexMem
  · intro o ho
    rcases hentry o ho with hold | rfl
    · exact h.orderMem o hold
    · exact hkey

theorem Linked.assoc (value : ν) : (m.assoc ops key value).Linked ops K := by
  cases hfind : ops.indexed m.index key with
  | none => exact h.assoc_of_none hops hkey hfind
  | some => exact h.assoc_of_some hops hkey hfind

theorem Linked.assoc_new (value : ν) (habsent : ∀ e ∈ m.entries, ops.eq e.1 key = false) :
    (m.assoc ops key value).Linked ops K ∧ (m.Fresh → (m.assoc ops key value).Fresh) ∧
      (m.assoc ops key value).entries = m.entries ++ [(key, value)] := by
  have hnone := (h.eq_none_iff hops hkey).mpr habsent
  refine ⟨h.assoc hops hkey value, ?_, ?_⟩
  · intro hfresh
    rw [h.assoc_absent hnone, Fresh, hfresh]
    simp
  · rw [h.assoc_absent hnone]
    simp only [entries, map_append, map_cons, map_nil]

theorem Linked.entries_dissoc :
    (m.dissoc ops key).entries = m.entries.filter (fun e => !ops.eq e.1 key) := by
  unfold dissoc entries
  cases hfind : ops.indexed m.index key with
  | none =>
    rw [eq_comm, filter_eq_self]
    intro e he
    rw [(h.eq_none_iff hops hkey).mp hfind e he]
    rfl
  | some =>
    simp only [filter_map]
    congr 1
    apply filter_congr
    intro o ho
    have hiff := h.number_eq_iff hops hkey hfind ho
    grind

omit hops hkey in
theorem Linked.dissoc : (m.dissoc ops key).Linked ops K := by
  cases hfind : ops.indexed m.index key with
  | none =>
    simp only [PersistentHashMap.dissoc, hfind]
    exact h
  | some found =>
    obtain ⟨k, seq⟩ := found
    have hnodup : (m.index.map Prod.snd).Nodup := h.indexes.perm.nodup_iff.mpr h.indexes.nodup
    have hindex : unindex ops m.index key = m.index.filter (fun e => e.2 != seq) :=
      eraseP_eq_filter hnodup hfind
    simp only [PersistentHashMap.dissoc, hfind, hindex]
    have hkeys : (m.order.filter (fun o => o.1 != seq)).map (fun entry => (entry.1, entry.2.1)) =
        (m.order.map (fun entry => (entry.1, entry.2.1))).filter (fun k => k.1 != seq) := by
      rw [filter_map]
      rfl
    constructor
    · constructor
      · rw [hkeys]
        have hperm := h.indexes.perm.filter (fun n => n != seq)
        rwa [filter_map, filter_map] at hperm
      · rw [hkeys]
        have hfilter := h.indexes.nodup.filter (fun n => n != seq)
        rwa [filter_map] at hfilter
      · intro e he o ho
        rw [hkeys] at ho
        exact h.indexes.agree e (mem_of_mem_filter he) o (mem_of_mem_filter ho)
      · exact h.indexes.distinct.filter _
    · exact h.ascending.filter _
    · intro o ho
      exact h.below o (mem_of_mem_filter ho)
    · intro e he
      exact h.indexMem e (mem_of_mem_filter he)
    · intro o ho
      exact h.orderMem o (mem_of_mem_filter ho)

end Linked

section Promotion

variable {ops : KeyOps κ} {K : Set κ} (hops : ops.Sound K)

include hops

theorem foldl_assoc : ∀ {pairs : List (κ × ν)} {m : PersistentHashMap κ ν}, m.Linked ops K →
    (∀ p ∈ pairs, p.1 ∈ K) →
    (m.entries ++ pairs).Pairwise (fun e e' => ops.eq e.1 e'.1 = false) →
    (pairs.foldl (fun m pair => m.assoc ops pair.1 pair.2) m).Linked ops K ∧
      (m.Fresh → (pairs.foldl (fun m pair => m.assoc ops pair.1 pair.2) m).Fresh) ∧
      (pairs.foldl (fun m pair => m.assoc ops pair.1 pair.2) m).entries = m.entries ++ pairs
  | [], m, h, _, _ => ⟨h, id, (append_nil _).symm⟩
  | (k, v) :: pairs, m, h, hK, hdistinct => by
    simp only [forall_mem_cons] at hK
    have hcross := (pairwise_append.mp hdistinct).2.2
    obtain ⟨hlinked, hfresh, hentries⟩ := h.assoc_new hops hK.1 v fun e he =>
      hcross e he (k, v) (.head _)
    have hrest := foldl_assoc hlinked hK.2 (by grind)
    grind

/-- **Promotion keeps contents and order**: the hash map of distinct pairs has these pairs. -/
theorem fromPairs_spec {pairs : List (κ × ν)} (hK : ∀ p ∈ pairs, p.1 ∈ K)
    (hdistinct : pairs.Pairwise (fun e e' => ops.eq e.1 e'.1 = false)) :
    (fromPairs ops pairs).Linked ops K ∧ (fromPairs ops pairs).Fresh ∧
      (fromPairs ops pairs).entries = pairs :=
  (foldl_assoc hops linked_empty hK hdistinct).imp_right (.imp_left fun h => h rfl)

end Promotion

end PersistentHashMap

/-! ## Maps follow their history -/

/-- A map that was not made as a sorted one, with its index and entries linked. -/
def MapValue.Linked (ops : KeyOps κ) (K : Set κ) : MapValue κ ν → Prop
  | array _ => True
  | hash m => m.Linked ops K
  | sorted _ | sortedBy _ => False

/-- The map is represented well and holds what the ordered map holds. -/
structure MapValue.Follows (ops : KeyOps κ) (K : Set κ) (m : MapValue κ ν) (s : OrderedMap κ ν) :
    Prop where
  represents : Represents ops.eq K m.iter s
  linked : m.Linked ops K

/-- What a map shows of itself is what the ordered map holds: lookups and the count, and in an
iteration each live key once, in order, with its value. -/
structure MapValue.Agrees (ops : KeyOps κ) (K : Set κ) (m : MapValue κ ν) (s : OrderedMap κ ν) :
    Prop where
  get : ∀ x ∈ K, m.get ops x = s.value x
  containsKey : ∀ x ∈ K, m.containsKey ops x = (s.value x).isSome
  count : m.count = s.keys.length
  iter : List.Forall₂ (fun e k => ops.eq e.1 k = true ∧ s.value k = some e.2) m.iter s.keys
  once : m.iter.Pairwise (fun e e' => ops.eq e.1 e'.1 = false)

section History

variable {ops : KeyOps κ} {K : Set κ} (hops : ops.Sound K)

include hops

variable {s : OrderedMap κ ν} {m : MapValue κ ν}

theorem MapValue.follows_ofResult {r : AssocResult κ ν}
    (h : Represents ops.eq K r.pairs s) : (ofResult ops r).Follows ops K s := by
  cases r with
  | array => exact ⟨h, trivial⟩
  | promote pairs =>
    have hpairs : Represents ops.eq K pairs s := h
    obtain ⟨hlinked, -, hentries⟩ :=
      PersistentHashMap.fromPairs_spec hops hpairs.mem hpairs.distinct
    refine ⟨?_, hlinked⟩
    show Represents ops.eq K (PersistentHashMap.fromPairs ops pairs).entries s
    grind

theorem MapValue.Follows.step (h : m.Follows ops K s)
    {op : Op κ ν} (hkey : op.key ∈ K) : (m.step ops op).Follows ops K (s.step ops.eq op) := by
  cases m with
  | sorted | sortedBy => exact h.linked.elim
  | array entries =>
    have hentries : Represents ops.eq K entries s := h.represents
    cases op with
    | assoc key value =>
      apply follows_ofResult hops
      rw [PersistentArrayMap.assoc_pairs]
      exact hentries.edit hops.equiv hkey (edit_replaceOrPush entries key value)
    | dissoc key =>
      have hkeyK : key ∈ K := hkey
      refine ⟨?_, trivial⟩
      show Represents ops.eq K (PersistentArrayMap.dissoc ops key entries) _
      rw [PersistentArrayMap.dissoc_eq_filter hops.equiv hkeyK hentries.mem hentries.distinct]
      exact hentries.edit hops.equiv hkey (Edit.remove key entries)
  | hash m =>
    have hlinked : m.Linked ops K := h.linked
    cases op with
    | assoc key value =>
      refine ⟨?_, hlinked.assoc hops hkey value⟩
      exact h.represents.edit hops.equiv hkey (hlinked.edit_assoc hops hkey value)
    | dissoc key =>
      have hkeyK : key ∈ K := hkey
      refine ⟨?_, hlinked.dissoc⟩
      show Represents ops.eq K (m.dissoc ops key).entries _
      rw [hlinked.entries_dissoc hops hkeyK]
      exact h.represents.edit hops.equiv hkey (Edit.remove key m.entries)

theorem MapValue.Follows.run : ∀ {operations : List (Op κ ν)} {m : MapValue κ ν}
    {s : OrderedMap κ ν}, m.Follows ops K s → (∀ op ∈ operations, op.key ∈ K) →
    (m.run ops operations).Follows ops K (s.run ops.eq operations)
  | [], _, _, h, _ => h
  | op :: operations, _, _, h, hK => by
    rw [forall_mem_cons] at hK
    exact (h.step hops hK.1).run hK.2

theorem represents_foldl : ∀ {pairs entries : List (κ × ν)} {s : OrderedMap κ ν},
    Represents ops.eq K entries s → (∀ p ∈ pairs, p.1 ∈ K) →
    Represents ops.eq K (pairs.foldl (replaceOrPush ops) entries)
      (s.run ops.eq (pairs.map (fun p => .assoc p.1 p.2)))
  | [], _, _, h, _ => h
  | (k, v) :: pairs, entries, _, h, hK => by
    rw [forall_mem_cons] at hK
    have hk : (Op.assoc k v).key ∈ K := hK.1
    have hfold := represents_foldl (h.edit hops.equiv hk (edit_replaceOrPush entries k v)) hK.2
    exact hfold

theorem MapValue.follows_fromPairs {pairs : List (κ × ν)} (hK : ∀ p ∈ pairs, p.1 ∈ K) :
    (fromPairs ops pairs).Follows ops K
      (OrderedMap.empty.run ops.eq (pairs.map (fun p => .assoc p.1 p.2))) := by
  apply follows_ofResult hops
  rw [PersistentArrayMap.fromPairs, PersistentArrayMap.fromPairsLoop_pairs]
  exact represents_foldl hops represents_empty hK

theorem MapValue.Follows.lawful (h : m.Follows ops K s) : m.Lawful ops K := by
  cases m with
  | sorted | sortedBy => exact h.linked.elim
  | array => exact ⟨rfl, pairwise_map.mpr h.represents.distinct, fun _ _ => rfl⟩
  | hash m =>
    have hlinked : m.Linked ops K := h.linked
    exact lawful_hashMap hops subset_rfl hlinked.indexes hlinked.indexMem hlinked.orderMem

theorem MapValue.Follows.containsKey_eq (h : m.Follows ops K s) {x : κ} (hx : x ∈ K) :
    m.containsKey ops x = (s.value x).isSome := by
  cases m with
  | sorted | sortedBy => exact h.linked.elim
  | array =>
    have hget := (h.lawful hops).get x hx
    rw [h.represents.find? hx] at hget
    exact congrArg Option.isSome hget
  | hash m =>
    have hlinked : m.Linked ops K := h.linked
    rw [Bool.eq_iff_iff, h.represents.isSome_iff hx]
    exact hlinked.isSome_iff hops hx

theorem MapValue.Follows.agrees (h : m.Follows ops K s) : m.Agrees ops K s := by
  have hlawful := h.lawful hops
  constructor
  · intro x hx
    rw [hlawful.get x hx]
    exact h.represents.find? hx
  · intro x hx
    exact h.containsKey_eq hops hx
  · rw [hlawful.count]
    exact h.represents.keys.length_eq
  · refine (forall₂_mem h.represents.keys).imp ?_
    intro e k hrel
    have hk := h.represents.live k hrel.2.2
    exact ⟨hrel.1, (h.represents.value k hk e.2).mpr ⟨e.1, hrel.2.1, hrel.1⟩⟩
  · exact h.represents.distinct

end History

/-! ## The counter -/

/-- A bound on the number of the next key, and on the entries that a promotion would number. -/
def MapValue.Within (n : Nat) : MapValue κ ν → Prop
  | array entries => entries.length ≤ n
  | hash m => m.nextSeq ≤ n
  | sorted _ | sortedBy _ => True

section Counter

variable {ops : KeyOps κ} {n : Nat} {m : MapValue κ ν}

theorem PersistentHashMap.nextSeq_assoc_le (m : PersistentHashMap κ ν) (key : κ) (value : ν) :
    (m.assoc ops key value).nextSeq ≤ m.nextSeq + 1 := by
  unfold assoc
  split
  · exact Nat.le_succ _
  · exact Nat.le_refl _

theorem PersistentHashMap.nextSeq_dissoc (m : PersistentHashMap κ ν) (key : κ) :
    (m.dissoc ops key).nextSeq = m.nextSeq := by
  unfold dissoc
  split
  · rfl
  · rfl

theorem PersistentHashMap.nextSeq_foldl_le : ∀ (pairs : List (κ × ν)) (m : PersistentHashMap κ ν),
    (pairs.foldl (fun m pair => m.assoc ops pair.1 pair.2) m).nextSeq ≤ m.nextSeq + pairs.length
  | [], _ => Nat.le_refl _
  | pair :: pairs, m => by
    have hhead : (m.assoc ops pair.1 pair.2).nextSeq ≤ m.nextSeq + 1 := nextSeq_assoc_le m pair.1 pair.2
    have htail := nextSeq_foldl_le pairs (m.assoc ops pair.1 pair.2)
    rw [foldl_cons, length_cons]
    omega

theorem length_replaceOrPush_le (entries : List (κ × ν)) (pair : κ × ν) :
    (replaceOrPush ops entries pair).length ≤ entries.length + 1 := by
  unfold replaceOrPush
  rcases replaceFirst_spec ops pair.1 pair.2 entries with ⟨l1, k, w, l2, rfl, -, hsome⟩ | ⟨hnone, -⟩
  · simp only [hsome, length_append, length_cons]
    omega
  · simp only [hnone, length_append, length_singleton]
    omega

theorem length_foldl_replaceOrPush_le : ∀ pairs entries : List (κ × ν),
    (pairs.foldl (replaceOrPush ops) entries).length ≤ entries.length + pairs.length
  | [], _ => Nat.le_refl _
  | pair :: pairs, entries => by
    have hhead : (replaceOrPush ops entries pair).length ≤ entries.length + 1 :=
      length_replaceOrPush_le entries pair
    have htail := length_foldl_replaceOrPush_le pairs (replaceOrPush ops entries pair)
    rw [foldl_cons, length_cons]
    omega

theorem PersistentArrayMap.length_dissoc_le (key : κ) : ∀ entries : List (κ × ν),
    (dissoc ops key entries).length ≤ entries.length
  | [] => Nat.le_refl _
  | (k, v) :: rest => by
    have htail := length_dissoc_le key rest
    unfold dissoc
    split
    · exact Nat.le_succ _
    · exact Nat.succ_le_succ htail

theorem MapValue.within_ofResult {r : AssocResult κ ν} (h : r.pairs.length ≤ n) :
    (ofResult ops r).Within n := by
  cases r with
  | array => exact h
  | promote pairs =>
    have hcount : (PersistentHashMap.fromPairs ops pairs).nextSeq ≤ 0 + pairs.length :=
      PersistentHashMap.nextSeq_foldl_le pairs .empty
    rw [Nat.zero_add] at hcount
    exact hcount.trans h

theorem MapValue.within_fromPairs (pairs : List (κ × ν)) : (fromPairs ops pairs).Within pairs.length := by
  apply within_ofResult
  rw [PersistentArrayMap.fromPairs, PersistentArrayMap.fromPairsLoop_pairs]
  have hlength : (pairs.foldl (replaceOrPush ops) []).length ≤ 0 + pairs.length :=
    length_foldl_replaceOrPush_le pairs []
  rwa [Nat.zero_add] at hlength

/-- **One update** moves the bound by one. -/
theorem MapValue.Within.step (h : m.Within n) (op : Op κ ν) : (m.step ops op).Within (n + 1) := by
  cases m with
  | sorted | sortedBy => cases op <;> trivial
  | array entries =>
    have hentries : entries.length ≤ n := h
    cases op with
    | assoc key value =>
      apply within_ofResult
      rw [PersistentArrayMap.assoc_pairs]
      exact (length_replaceOrPush_le entries (key, value)).trans (Nat.succ_le_succ hentries)
    | dissoc key =>
      exact ((PersistentArrayMap.length_dissoc_le key entries).trans hentries).trans (Nat.le_succ n)
  | hash m =>
    have hcount : m.nextSeq ≤ n := h
    cases op with
    | assoc key value => exact (m.nextSeq_assoc_le key value).trans (Nat.succ_le_succ hcount)
    | dissoc key => exact ((m.nextSeq_dissoc key).le.trans hcount).trans (Nat.le_succ n)

theorem MapValue.Within.run : ∀ {operations : List (Op κ ν)} {m : MapValue κ ν} {n : Nat}, m.Within n →
    (m.run ops operations).Within (n + operations.length)
  | [], _, _, h => h
  | op :: operations, m, n, h => by
    rw [length_cons, Nat.add_comm operations.length, ← Nat.add_assoc]
    exact (h.step op).run

end Counter

/-- **Maps are insertion-ordered finite maps**, over keys on which `==` is an equivalence that the
hash respects: after every sequence of updates of the empty map or of a map of pairs, the map shows
what the ordered map of the same history holds, and its counter is no larger than the history is
long; a promoted map has the entries, the order and the lookups of the array map. -/
theorem maps_refine_insertion_order (ops : KeyOps κ) (K : Set κ) (hequiv : EquivOn ops.eq K)
    (hhash : ∀ x ∈ K, ∀ y ∈ K, ops.eq x y = true → ops.hash x = ops.hash y) :
    MapValue.fromPairs ops [] = (MapValue.empty : MapValue κ ν) ∧
    (∀ (pairs : List (κ × ν)) (operations : List (Op κ ν)), (∀ p ∈ pairs, p.1 ∈ K) →
      (∀ op ∈ operations, op.key ∈ K) →
      ((MapValue.fromPairs ops pairs).run ops operations).Agrees ops K
        ((OrderedMap.empty.run ops.eq (pairs.map (fun p => .assoc p.1 p.2))).run ops.eq
          operations) ∧
      ((MapValue.fromPairs ops pairs).run ops operations).Within (pairs.length + operations.length)) ∧
    ∀ entries : List (κ × ν), (∀ e ∈ entries, e.1 ∈ K) →
      entries.Pairwise (fun e e' => ops.eq e.1 e'.1 = false) →
      (MapValue.ofResult ops (.promote entries)).iter = entries ∧
      (MapValue.ofResult ops (.promote entries)).count = (MapValue.array entries).count ∧
      ∀ x ∈ K, (MapValue.ofResult ops (.promote entries)).get ops x =
        (MapValue.array entries).get ops x := by
  have hops : ops.Sound K := ⟨hequiv, hhash⟩
  refine ⟨rfl, ?_, ?_⟩
  · intro pairs operations hpairs hoperations
    have hstart := MapValue.follows_fromPairs hops hpairs
    exact ⟨(hstart.run hops hoperations).agrees hops, (MapValue.within_fromPairs pairs).run⟩
  · intro entries hK hdistinct
    obtain ⟨hlinked, -, hentries⟩ := PersistentHashMap.fromPairs_spec hops hK hdistinct
    have hlawful := lawful_hashMap hops subset_rfl hlinked.indexes hlinked.indexMem hlinked.orderMem
    refine ⟨hentries, ?_, ?_⟩
    · exact hlawful.count.trans (congrArg List.length hentries)
    · intro x hx
      have hget := hlawful.get x hx
      rwa [show (MapValue.hash (PersistentHashMap.fromPairs ops entries)).iter = entries
        from hentries] at hget

/-- Natural numbers as keys. -/
def natKeys : KeyOps Nat := ⟨fun x y => x == y, fun x => UInt32.ofNat x, compare⟩

/-- Nine pairs make a hash map; a key that is taken out and put in again is last, a key that is
written over stays. -/
theorem maps_refine_insertion_order_nat :
    ((MapValue.fromPairs natKeys ((List.range 9).map (fun n => (n, n)))).run natKeys
        [.dissoc 3, .assoc 5 50, .assoc 3 33]).Agrees natKeys Set.univ
      ((OrderedMap.empty.run natKeys.eq
        (((List.range 9).map (fun n => (n, n))).map (fun p => .assoc p.1 p.2))).run natKeys.eq
          [.dissoc 3, .assoc 5 50, .assoc 3 33]) ∧
    ((MapValue.fromPairs natKeys ((List.range 9).map (fun n => (n, n)))).run natKeys
        [.dissoc 3, .assoc 5 50, .assoc 3 33]).iter =
      [(0, 0), (1, 1), (2, 2), (4, 4), (5, 50), (6, 6), (7, 7), (8, 8), (3, 33)] := by
  have hequiv : EquivOn natKeys.eq Set.univ :=
    .of_cancel (fun x _ => beq_self_eq_true x) fun z _ x _ y _ h h' =>
      beq_iff_eq.mpr ((eq_of_beq h).symm.trans (eq_of_beq h'))
  have hhash : ∀ x ∈ Set.univ, ∀ y ∈ Set.univ, natKeys.eq x y = true →
      natKeys.hash x = natKeys.hash y := by
    intro x _ y _ h
    rw [eq_of_beq h]
  refine ⟨?_, by decide⟩
  exact ((maps_refine_insertion_order natKeys Set.univ hequiv hhash).2.1 _ _
    (fun _ _ => Set.mem_univ _) (fun _ _ => Set.mem_univ _)).1

end Clojurust
