import Clojurust.Value.Twins
import Clojurust.Value.Update

/-!
# Collections built from distinct keys

Readers and decoders build a collection by adding one key after the other to an empty one. When no
two of the keys are equal, what comes out has them all, in their order.

* `PersistentHashMap.Fresh` — an index and entries that only grew;
* `MapValue.Grown`, `MapValue.fromPairs_spec` — maps, by `assoc` and by `from_pairs`;
* `GrowingSet`, `GrowingSet.ofList_spec` — hash sets, by `conj`;
* `Tree.toList_foldl_insert` — sorted collections, by `insert`, from keys that ascend.
-/

namespace Clojurust

open Matching List

variable {κ ν : Type}

/-- No two keys are equal. -/
def KeyOps.Distinct (ops : KeyOps κ) (keys : List κ) : Prop :=
  keys.Pairwise (fun x y => ops.eq x y = false)

/-! ## Array maps -/

section Arrays

variable {ops : KeyOps κ}

theorem replaceFirst_of_absent {key : κ} {value : ν} : ∀ {l : List (κ × ν)},
    (∀ e ∈ l, ops.eq e.1 key = false) → replaceFirst ops key value l = none
  | [], _ => rfl
  | (k, v) :: rest, h => by
    simp only [forall_mem_cons] at h
    unfold replaceFirst
    rw [h.1, if_neg Bool.false_ne_true, replaceFirst_of_absent h.2]
    rfl

variable {pair : κ × ν}

theorem replaceOrPush_of_absent {l : List (κ × ν)}
    (h : ∀ e ∈ l, ops.eq e.1 pair.1 = false) : replaceOrPush ops l pair = l ++ [pair] := by
  unfold replaceOrPush
  rw [replaceFirst_of_absent h]

theorem KeyOps.Distinct.absent {entries pairs : List (κ × ν)}
    (h : ops.Distinct ((entries ++ pair :: pairs).map Prod.fst)) :
    ∀ e ∈ entries, ops.eq e.1 pair.1 = false := by
  intro e he
  have hcross := (pairwise_append.mp (pairwise_map.mp h)).2.2
  exact hcross e he pair (.head _)

theorem foldl_replaceOrPush : ∀ {pairs entries : List (κ × ν)},
    ops.Distinct ((entries ++ pairs).map Prod.fst) →
    pairs.foldl (replaceOrPush ops) entries = entries ++ pairs
  | [], entries, _ => (append_nil entries).symm
  | pair :: pairs, entries, h => by
    have hsplit : entries ++ pair :: pairs = entries ++ [pair] ++ pairs := by simp
    rw [foldl_cons, replaceOrPush_of_absent h.absent, hsplit]
    exact foldl_replaceOrPush (hsplit ▸ h)

end Arrays

/-! ## Hash maps -/

namespace PersistentHashMap

theorem Fresh.unsorted {ops : KeyOps κ} {K : Set κ} {m : PersistentHashMap κ ν} (h : m.Linked ops K)
    (hfresh : m.Fresh) : (MapValue.hash m).Unsorted ops := by
  refine ⟨h.indexes, ?_⟩
  intro e he
  rw [hfresh] at he
  grind

end PersistentHashMap

/-! ## Maps -/

namespace MapValue

/-- An array map or a hash map that only grew, with these entries. -/
def Grown (ops : KeyOps κ) (K : Set κ) (entries : List (κ × ν)) : MapValue κ ν → Prop
  | array entries' => entries' = entries
  | hash m => m.Linked ops K ∧ m.Fresh ∧ m.entries = entries
  | _ => False

theorem Grown.unsorted {ops : KeyOps κ} {K : Set κ} {entries : List (κ × ν)} {m : MapValue κ ν}
    (h : m.Grown ops K entries) : m.Unsorted ops ∧ m.iter = entries := by
  cases m with
  | array => exact ⟨trivial, h⟩
  | hash m => exact ⟨PersistentHashMap.Fresh.unsorted h.1 h.2.1, h.2.2⟩
  | sorted | sortedBy => exact h.elim

section Grown

variable {ops : KeyOps κ} {K : Set κ} (hops : ops.Sound K)

include hops

theorem grown_ofResult {r : AssocResult κ ν} (hK : ∀ p ∈ r.pairs, p.1 ∈ K)
    (hdistinct : ops.Distinct (r.pairs.map Prod.fst)) : (ofResult ops r).Grown ops K r.pairs := by
  cases r with
  | array => rfl
  | promote => exact PersistentHashMap.fromPairs_spec hops hK (pairwise_map.mp hdistinct)

theorem Grown.assoc {entries : List (κ × ν)} {m : MapValue κ ν} (h : m.Grown ops K entries)
    {pair : κ × ν} (hK : ∀ e ∈ entries ++ [pair], e.1 ∈ K)
    (hdistinct : ops.Distinct ((entries ++ [pair]).map Prod.fst)) :
    (m.assoc ops pair.1 pair.2).Grown ops K (entries ++ [pair]) := by
  have habsent := hdistinct.absent
  cases m with
  | array entries' =>
    obtain rfl : entries' = entries := h
    have hpairs : (PersistentArrayMap.assoc ops pair.1 pair.2 entries').pairs = entries' ++ [pair] := by
      rw [PersistentArrayMap.assoc_pairs]
      exact replaceOrPush_of_absent habsent
    have hgrown := grown_ofResult hops
      (r := PersistentArrayMap.assoc ops pair.1 pair.2 entries') (by rwa [hpairs]) (by rwa [hpairs])
    rwa [hpairs] at hgrown
  | hash m =>
    obtain ⟨hlinked, hfresh, rfl⟩ := h
    obtain ⟨hlinked', hfresh', hentries⟩ :=
      hlinked.assoc_new hops (hK pair (by simp)) pair.2 habsent
    exact ⟨hlinked', hfresh' hfresh, hentries⟩
  | sorted | sortedBy => exact h.elim

theorem Grown.foldl_assoc : ∀ {pairs entries : List (κ × ν)} {m : MapValue κ ν},
    m.Grown ops K entries → (∀ e ∈ entries ++ pairs, e.1 ∈ K) →
    ops.Distinct ((entries ++ pairs).map Prod.fst) →
    (pairs.foldl (fun m pair => m.assoc ops pair.1 pair.2) m).Grown ops K (entries ++ pairs)
  | [], entries, m, h, _, _ => by rwa [append_nil]
  | pair :: pairs, entries, m, h, hK, hdistinct => by
    rw [← singleton_append, ← append_assoc] at hK hdistinct ⊢
    have hfirst : ops.Distinct ((entries ++ [pair]).map Prod.fst) := by
      rw [map_append] at hdistinct
      exact (pairwise_append.mp hdistinct).1
    have hassoc := h.assoc hops (fun e he => hK e (mem_append_left _ he)) hfirst
    exact hassoc.foldl_assoc hK hdistinct

variable {pairs : List (κ × ν)}

theorem fromPairs_spec (hK : ∀ p ∈ pairs, p.1 ∈ K) (hdistinct : ops.Distinct (pairs.map Prod.fst)) :
    (fromPairs ops pairs).Unsorted ops ∧ (fromPairs ops pairs).iter = pairs := by
  have hpairs : (PersistentArrayMap.fromPairs ops pairs).pairs = pairs := by
    rw [PersistentArrayMap.fromPairs, PersistentArrayMap.fromPairsLoop_pairs]
    exact foldl_replaceOrPush hdistinct
  have hgrown := grown_ofResult hops (r := PersistentArrayMap.fromPairs ops pairs)
    (by rwa [hpairs]) (by rwa [hpairs])
  rw [hpairs] at hgrown
  exact hgrown.unsorted

end Grown

end MapValue

/-! ## Hash sets -/

/-- A hash set with the number of its next key. -/
structure GrowingSet (κ : Type) extends PersistentHashSet κ where
  nextSeq : Nat

namespace GrowingSet

def empty : GrowingSet κ := ⟨⟨[], []⟩, 0⟩

/-- `PersistentHashSet::conj`: a key that is there stays as it is. -/
def conj (ops : KeyOps κ) (s : GrowingSet κ) (key : κ) : GrowingSet κ :=
  if (ops.indexed s.index key).isSome then s
  else
    { index := s.index ++ [(key, s.nextSeq)]
      order := SortedTable.insertEntry s.nextSeq key s.order
      nextSeq := s.nextSeq + 1 }

/-- `PersistentHashSet::from_iter`. -/
def ofList (ops : KeyOps κ) (keys : List κ) : GrowingSet κ := keys.foldl (conj ops) empty

/-- The index and the elements of a set of distinct keys, all numbered below the counter. -/
@[grind cases]
structure Grown (s : GrowingSet κ) (keys : List κ) : Prop where
  index : s.index = s.order.map (fun entry => (entry.2, entry.1))
  order : s.order.map Prod.snd = keys
  ascending : s.order.Pairwise (fun o o' => o.1 < o'.1)
  below : ∀ o ∈ s.order, o.1 < s.nextSeq

variable {ops : KeyOps κ}

theorem Grown.conj {s : GrowingSet κ} {keys : List κ} (h : s.Grown keys) {key : κ}
    (habsent : ∀ k ∈ keys, ops.eq k key = false) : (s.conj ops key).Grown (keys ++ [key]) := by
  have hnone : ops.indexed s.index key = none := by
    refine find?_eq_none.mpr ?_
    intro e he
    rw [h.index] at he
    obtain ⟨o, ho, rfl⟩ := mem_map.mp he
    have hne := habsent o.2 (h.order ▸ mem_map_of_mem ho)
    simp [hne]
  have hlast : SortedTable.insertEntry s.nextSeq key s.order = s.order ++ [(s.nextSeq, key)] :=
    SortedTable.insertEntry_of_gt fun o ho => Nat.compare_eq_gt.mpr (h.below o ho)
  have hconj : s.conj ops key =
      ⟨⟨s.index ++ [(key, s.nextSeq)], s.order ++ [(s.nextSeq, key)]⟩, s.nextSeq + 1⟩ := by
    rw [GrowingSet.conj, hnone, Option.isSome_none, if_neg Bool.false_ne_true, hlast]
  rw [hconj]
  constructor
  all_goals grind

theorem Grown.foldl_conj : ∀ {rest keys : List κ} {s : GrowingSet κ}, s.Grown keys →
    ops.Distinct (keys ++ rest) → (rest.foldl (GrowingSet.conj ops) s).Grown (keys ++ rest)
  | [], keys, s, h, _ => by rwa [append_nil]
  | key :: rest, keys, s, h, hdistinct => by
    have habsent : ∀ k ∈ keys, ops.eq k key = false := fun k hk =>
      (pairwise_append.mp hdistinct).2.2 k hk key (.head _)
    rw [← singleton_append, ← append_assoc] at hdistinct ⊢
    exact (h.conj habsent).foldl_conj hdistinct

/-- **Distinct keys added one by one** are the elements, in their order. -/
theorem ofList_spec {keys : List κ} (hrefl : ∀ k ∈ keys, ops.eq k k = true)
    (hdistinct : ops.Distinct keys) :
    (SetValue.hash (ofList ops keys).toPersistentHashSet).Unsorted ops ∧
      (SetValue.hash (ofList ops keys).toPersistentHashSet).iter = keys := by
  have hempty : (empty : GrowingSet κ).Grown [] :=
    ⟨rfl, rfl, .nil, by simp [empty]⟩
  have hgrown : (ofList ops keys).Grown keys := hempty.foldl_conj hdistinct
  generalize ofList ops keys = s at hgrown ⊢
  have hnodup : (s.order.map Prod.fst).Nodup :=
    pairwise_map.mpr (hgrown.ascending.imp Nat.ne_of_lt)
  refine ⟨⟨⟨?_, hnodup, ?_, ?_⟩, ?_⟩, hgrown.order⟩
  · grind
  · intro e he k hk hnumber
    rw [hgrown.index] at he
    obtain ⟨o, ho, rfl⟩ := mem_map.mp he
    -- the numbers are distinct, so this is the same entry
    have hsame : k = o := by
      by_contra hne
      rcases pairwise_or hgrown.ascending hk ho hne with hlt | hlt
      · exact absurd hnumber (Nat.ne_of_lt hlt)
      · exact absurd hnumber.symm (Nat.ne_of_lt hlt)
    grind
  · rw [hgrown.index]
    have hpairs := hdistinct
    rw [← hgrown.order] at hpairs
    refine pairwise_map.mpr ((pairwise_map.mp hpairs).imp ?_)
    grind
  · grind

end GrowingSet

/-! ## Sorted collections -/

namespace Tree

variable {α : Type}

theorem toList_insert_of_gt {probe : α → Ordering} {entry : α} : ∀ {t : Tree α},
    (∀ e ∈ t.toList, probe e = .gt) → (t.insert probe entry).toList = t.toList ++ [entry]
  | leaf, _ => rfl
  | node left e right, h => by
    simp only [toList, forall_mem_append, forall_mem_cons] at h
    simp only [insert, h.2.1, toList, toList_insert_of_gt h.2.2, append_assoc, cons_append]

/-- **Entries that ascend, inserted one by one**, are the entries of the tree. -/
theorem toList_foldl_insert (probe : α → α → Ordering) : ∀ {entries : List α} {t : Tree α},
    (t.toList ++ entries).Pairwise (fun e e' => probe e' e = .gt) →
    (entries.foldl (fun t entry => t.insert (probe entry) entry) t).toList = t.toList ++ entries
  | [], t, _ => (append_nil _).symm
  | entry :: entries, t, h => by
    have hlast : (t.insert (probe entry) entry).toList = t.toList ++ [entry] :=
      toList_insert_of_gt fun e he =>
        (pairwise_append.mp h).2.2 e he entry (.head _)
    rw [foldl_cons, toList_foldl_insert probe (by grind), hlast, append_assoc, singleton_append]

end Tree

/-! ## Building collections anew -/

namespace Value

section Rebuilding

variable {num : Numerics} {K D : Set Value} (hK : Tidy num K) (hD : Clean num K D)

include hK hD

variable {m : MapValue Value Value} {s : SetValue Value} {items : List Value}
  {pairs : List (Value × Value)}

theorem Clean.distinct_keys {v : Value} (hv : v ∈ D) (hm : v.HasMap m)
    {keys : List Value} (h : List.Forall₂ (Rebuilt num K) (m.iter.map Prod.fst) keys) :
    (∀ k ∈ keys, k ∈ twins num K (upTo K v.size)) ∧ (keyOps num).Distinct keys := by
  have hA := hK.agree v.size
  have hinside := hD.mapInside hv hm
  have hL := hinside.keySet_subset
  have hkeys : ∀ k ∈ m.iter.map Prod.fst, k ∈ upTo K v.size := by
    intro k hk
    obtain ⟨e, he, rfl⟩ := mem_map.mp hk
    exact hL ⟨e, he, rfl⟩
  constructor
  · intro k' hk'
    obtain ⟨k, hk, hkk'⟩ := exists_left_of_forall₂ h k' hk'
    exact ⟨k, hkeys k hk, .inr hkk'⟩
  · refine pairwise_of_forall₂ h (hA.lawful_map hK.toOrdinary hL hinside).distinct ?_
    intro x hx y hy x' y' hxx' hyy' hne
    exact (hA.eq x (hkeys x hx) y (hkeys y hy) x' y' (.inr hxx') (.inr hyy')).trans hne

theorem Clean.distinct_items (hs : set s ∈ D) (h : List.Forall₂ (Rebuilt num K) s.iter items) :
    (∀ x ∈ items, x ∈ twins num K (upTo K (set s).size)) ∧ (keyOps num).Distinct items := by
  have hA := hK.agree (set s).size
  have hinside := hD.setInside hs
  have hL : {x | x ∈ s.iter} ⊆ upTo K (set s).size := fun k hk =>
    hinside.held k (SetValue.mem_members hk)
  constructor
  · intro x' hx'
    obtain ⟨x, hx, hxx'⟩ := exists_left_of_forall₂ h x' hx'
    exact ⟨x, hL hx, .inr hxx'⟩
  · refine pairwise_of_forall₂ h (hA.lawful_set hK.toOrdinary hL hinside).distinct ?_
    intro x hx y hy x' y' hxx' hyy' hne
    exact (hA.eq x (hL hx) y (hL hy) x' y' (.inr hxx') (.inr hyy')).trans hne

/-- **A map is built anew** by adding its entries, built anew, to the empty map. -/
theorem Clean.rebuilt_assoc (hm : map m ∈ D)
    (hkeys : List.Forall₂ (Rebuilt num K) (m.iter.map Prod.fst) (pairs.map Prod.fst))
    (hvalues : List.Forall₂ (Rebuilt num K) (m.iter.map Prod.snd) (pairs.map Prod.snd)) :
    Rebuilt num K (map m)
      (map (pairs.foldl (fun m pair => m.assoc (keyOps num) pair.1 pair.2) .empty)) := by
  have hA := hK.agree (map m).size
  obtain ⟨hmem, hdistinct⟩ := hD.distinct_keys hK hm (.map m) hkeys
  have hmem' : ∀ p ∈ pairs, p.1 ∈ twins num K (upTo K (map m).size) := fun p hp =>
    hmem p.1 (mem_map_of_mem hp)
  have hempty {K : Set Value} : (.empty : MapValue Value Value).Grown (keyOps num) K [] := rfl
  obtain ⟨hunsorted, hiter⟩ := (hempty.foldl_assoc (hA.sound hK.toOrdinary) hmem'
    hdistinct).unsorted
  refine .map ?_ ?_ (.inl hunsorted)
  · rwa [hiter]
  · rwa [hiter]

theorem Clean.unsorted_fromPairs {v : Value} (hv : v ∈ D) (hm : v.HasMap m)
    (hkeys : List.Forall₂ (Rebuilt num K) (m.iter.map Prod.fst) (pairs.map Prod.fst)) :
    (MapValue.fromPairs (keyOps num) pairs).Unsorted (keyOps num) ∧
      (MapValue.fromPairs (keyOps num) pairs).iter = pairs := by
  have hA := hK.agree v.size
  obtain ⟨hmem, hdistinct⟩ := hD.distinct_keys hK hv hm hkeys
  exact MapValue.fromPairs_spec (hA.sound hK.toOrdinary) (fun p hp => hmem _ (mem_map_of_mem hp))
    hdistinct

/-- **A set is built anew** as a hash set of its elements, built anew. -/
theorem Clean.rebuilt_conj (hs : set s ∈ D) (h : List.Forall₂ (Rebuilt num K) s.iter items) :
    Rebuilt num K (set s) (set (.hash (GrowingSet.ofList (keyOps num) items).toPersistentHashSet)) := by
  have hA := hK.agree (set s).size
  obtain ⟨hmem, hdistinct⟩ := hD.distinct_items hK hs h
  have hrefl : ∀ k ∈ items, (keyOps num).eq k k = true := fun k hk =>
    (hA.sound hK.toOrdinary).equiv.refl k (hmem k hk)
  obtain ⟨hunsorted, hiter⟩ := GrowingSet.ofList_spec hrefl hdistinct
  refine .set ?_ (.inl hunsorted)
  rwa [hiter]

end Rebuilding

end Value

end Clojurust
