import Mathlib.Data.List.Basic

/-!
# Sorted tables

A finite map kept as a list of entries in strictly ascending key order, the shape an ordered
key-value store presents to a cursor.

* `Table` — the entries with the proof that they are sorted, `get` / `put` / `del`;
* `get_put`, `get_del`, `Table.ext_get` — the map laws, and extensionality;
* `while_eq_filter` — a cursor that stops at the first key beyond a monotone test visits exactly the
  keys that pass it;
* `prefixScan_eq_filter` — seeking a prefix and walking on while it lasts visits exactly the
  keys that start with it.
-/

namespace SortedTable

open List

/-! ## Cursors over sorted lists -/

section Cursor

variable {α : Type}

variable {p : α → Bool}

theorem while_eq_filter : ∀ {l : List α}, l.Pairwise (fun x y => p y = true → p x = true) →
    l.takeWhile p = l.filter p ∧ l.dropWhile p = l.filter (fun x => !p x)
  | [], _ => ⟨rfl, rfl⟩
  | x :: xs, h => by
    obtain ⟨hx, hxs⟩ := pairwise_cons.mp h
    by_cases hp : p x = true
    · simpa [hp] using while_eq_filter hxs
    · have hno : ∀ y ∈ xs, p y = false := by grind
      have hself : xs.filter (fun y => !p y) = xs := filter_eq_self.mpr (by simpa using hno)
      simpa [hp, hself] using hno

theorem eq_of_pairwise_of_mem_iff {r : α → α → Prop} (hirr : ∀ x y, r x y → ¬ r y x)
    {l m : List α} (hl : l.Pairwise r) (hm : m.Pairwise r) (h : ∀ x, x ∈ l ↔ x ∈ m) : l = m := by
  have hself : ∀ x, ¬ r x x := fun x hx => hirr x x hx hx
  have hnd : ∀ {n : List α}, n.Pairwise r → n.Nodup := by
    intro n hn
    refine hn.imp ?_
    rintro x y hxy rfl
    exact hself x hxy
  refine List.Perm.eq_of_pairwise (fun x y _ _ hxy hyx => absurd hyx (hirr x y hxy)) hl hm ?_
  exact (perm_ext_iff_of_nodup (hnd hl) (hnd hm)).mpr h

end Cursor

/-! ## Tables -/

/-- A finite map as its entries in strictly ascending key order. -/
structure Table (κ ν : Type) [Ord κ] where
  entries : List (κ × ν)
  sorted : entries.Pairwise (fun x y => compare x.1 y.1 = .lt)

section Ops

variable {κ ν : Type} [Ord κ]

/-- The value of a key among the entries. -/
def lookup (k : κ) : List (κ × ν) → Option ν
  | [] => none
  | (k', v) :: es => if compare k k' = .eq then some v else lookup k es

/-- Insert an entry at its place, replacing the entry of an equal key. -/
def insertEntry (k : κ) (v : ν) : List (κ × ν) → List (κ × ν)
  | [] => [(k, v)]
  | (k', v') :: es =>
    match compare k k' with
    | .lt => (k, v) :: (k', v') :: es
    | .eq => (k, v) :: es
    | .gt => (k', v') :: insertEntry k v es

variable {k : κ} {v : ν}

theorem fst_mem_insertEntry {x : κ × ν} : ∀ {es : List (κ × ν)},
    x ∈ insertEntry k v es → x = (k, v) ∨ x ∈ es
  | [], h => by simpa [insertEntry] using h
  | (k', v') :: es, h => by
    unfold insertEntry at h
    split at h
    · simpa using h
    · grind
    · rcases mem_cons.mp h with h | h
      · exact .inr (by simp [h])
      · rcases fst_mem_insertEntry h with h | h
        all_goals grind

theorem insertEntry_of_gt : ∀ {es : List (κ × ν)},
    (∀ e ∈ es, compare k e.1 = .gt) → insertEntry k v es = es ++ [(k, v)]
  | [], _ => rfl
  | (k', v') :: es, h => by
    have hhead : compare k k' = .gt := h (k', v') (.head _)
    have htail : ∀ e ∈ es, compare k e.1 = .gt := fun e he => h e (.tail _ he)
    simp only [insertEntry, hhead, insertEntry_of_gt htail, cons_append]

theorem insertEntry_of_mem [Std.ReflOrd κ] {w : ν} {es' : List (κ × ν)} :
    ∀ {es : List (κ × ν)}, (∀ e ∈ es, compare k e.1 = .gt) →
      insertEntry k v (es ++ (k, w) :: es') = es ++ (k, v) :: es'
  | [], _ => by simp only [nil_append, insertEntry, Std.ReflOrd.compare_self]
  | (k', v') :: es, h => by
    have hhead : compare k k' = .gt := h (k', v') (.head _)
    have htail : ∀ e ∈ es, compare k e.1 = .gt := fun e he => h e (.tail _ he)
    simp only [cons_append, insertEntry, hhead, insertEntry_of_mem htail]

variable [Std.LawfulEqOrd κ]

theorem lookup_insertEntry [DecidableEq κ] (k k' : κ) (v : ν) : ∀ (es : List (κ × ν)),
    lookup k' (insertEntry k v es) = if k' = k then some v else lookup k' es
  | [] => by
    simp only [insertEntry, lookup, Std.compare_eq_iff_eq]
  | (c, w) :: es => by
    unfold insertEntry
    split
    · simp only [lookup, Std.compare_eq_iff_eq]
    · rename_i heq
      obtain rfl := Std.LawfulEqOrd.eq_of_compare heq
      simp only [lookup, Std.compare_eq_iff_eq]
      split <;> rfl
    · rename_i hgt
      simp only [lookup, Std.compare_eq_iff_eq, lookup_insertEntry k k' v es]
      grind

theorem lookup_filter_ne [DecidableEq κ] (k k' : κ) : ∀ (es : List (κ × ν)),
    lookup k' (es.filter (fun e => compare e.1 k != .eq)) = if k' = k then none else lookup k' es
  | [] => by simp [lookup]
  | (c, w) :: es => by
    by_cases hc : c = k
    · subst hc
      rw [filter_cons_of_neg (by simp), lookup_filter_ne c k' es]
      simp only [lookup, Std.compare_eq_iff_eq]
      split <;> rfl
    · have hne : compare c k ≠ .eq := fun h => hc (Std.LawfulEqOrd.eq_of_compare h)
      rw [filter_cons_of_pos (by simpa using hne)]
      simp only [lookup, Std.compare_eq_iff_eq, lookup_filter_ne k k' es]
      grind

theorem lookup_eq_some_iff : ∀ {es : List (κ × ν)},
    es.Pairwise (fun x y => compare x.1 y.1 = .lt) → (lookup k es = some v ↔ (k, v) ∈ es)
  | [], _ => by simp [lookup]
  | (c, w) :: es, h => by
    obtain ⟨hc, hes⟩ := pairwise_cons.mp h
    simp only [lookup, Std.compare_eq_iff_eq, mem_cons, Prod.mk.injEq]
    by_cases hk : k = c
    · grind
    · simp [hk, lookup_eq_some_iff hes]

variable [Std.TransOrd κ]

theorem sorted_insertEntry (k : κ) (v : ν) : ∀ {es : List (κ × ν)},
    es.Pairwise (fun x y => compare x.1 y.1 = .lt) →
    (insertEntry k v es).Pairwise (fun x y => compare x.1 y.1 = .lt)
  | [], _ => by simp [insertEntry]
  | (k', v') :: es, h => by
    obtain ⟨hk, hes⟩ := pairwise_cons.mp h
    unfold insertEntry
    split
    · rename_i hlt
      refine pairwise_cons.mpr ⟨?_, h⟩
      intro y hy
      rcases mem_cons.mp hy with rfl | hy
      · exact hlt
      · exact Std.TransCmp.lt_trans hlt (hk y hy)
    · rename_i heq
      obtain rfl := Std.LawfulEqOrd.eq_of_compare heq
      exact pairwise_cons.mpr ⟨hk, hes⟩
    · rename_i hgt
      refine pairwise_cons.mpr ⟨?_, sorted_insertEntry k v hes⟩
      intro y hy
      rcases fst_mem_insertEntry hy with rfl | hy
      · exact Std.OrientedCmp.gt_iff_lt.mp hgt
      · exact hk y hy

end Ops

namespace Table

variable {κ ν : Type} [Ord κ]

/-- The table without entries. -/
def empty : Table κ ν := ⟨[], List.Pairwise.nil⟩

def get (t : Table κ ν) (k : κ) : Option ν := lookup k t.entries

def keys (t : Table κ ν) : List κ := t.entries.map Prod.fst

/-- Number of entries. -/
def size (t : Table κ ν) : Nat := t.entries.length

theorem keys_sorted (t : Table κ ν) : t.keys.Pairwise (fun x y => compare x y = .lt) :=
  pairwise_map.mpr t.sorted

@[simp] theorem get_empty (k : κ) : (empty : Table κ ν).get k = none := rfl

variable [Std.LawfulEqOrd κ]

variable {t : Table κ ν} {k k' : κ}

theorem get_eq_some_iff {v : ν} : t.get k = some v ↔ (k, v) ∈ t.entries :=
  lookup_eq_some_iff t.sorted

theorem mem_keys_iff : k ∈ t.keys ↔ ∃ v, t.get k = some v := by
  simp only [keys, mem_map, get_eq_some_iff]
  simp

def del (t : Table κ ν) (k : κ) : Table κ ν :=
  ⟨t.entries.filter (fun e => compare e.1 k != .eq), t.sorted.filter _⟩

theorem get_del [DecidableEq κ] (t : Table κ ν) (k k' : κ) :
    (t.del k).get k' = if k' = k then none else t.get k' :=
  lookup_filter_ne k k' t.entries

theorem mem_keys_del : k' ∈ (t.del k).keys ↔ k' ≠ k ∧ k' ∈ t.keys := by
  classical
  simp only [mem_keys_iff, get_del]
  by_cases h : k' = k <;> simp [h]

variable [Std.TransOrd κ]

def put (t : Table κ ν) (k : κ) (v : ν) : Table κ ν :=
  ⟨insertEntry k v t.entries, sorted_insertEntry k v t.sorted⟩

theorem get_put [DecidableEq κ] (t : Table κ ν) (k k' : κ) (v : ν) :
    (t.put k v).get k' = if k' = k then some v else t.get k' :=
  lookup_insertEntry k k' v t.entries

@[simp] theorem get_put_self (t : Table κ ν) (k : κ) (v : ν) : (t.put k v).get k = some v := by
  classical simp [get_put]

theorem get_put_of_ne (t : Table κ ν) (v : ν) (h : k' ≠ k) : (t.put k v).get k' = t.get k' := by
  classical simp [get_put, h]

theorem mem_keys_put {v : ν} : k' ∈ (t.put k v).keys ↔ k' = k ∨ k' ∈ t.keys := by
  classical
  simp only [mem_keys_iff, get_put]
  by_cases h : k' = k <;> simp [h]

/-- **Tables with the same values at every key are equal.** -/
theorem ext_get {u : Table κ ν} (h : ∀ k, t.get k = u.get k) : t = u := by
  have hasymm : ∀ x y : κ × ν, compare x.1 y.1 = .lt → ¬ compare y.1 x.1 = .lt := by
    intro x y hxy hyx
    have := Std.TransCmp.lt_trans hxy hyx
    simp at this
  have : t.entries = u.entries := by
    refine eq_of_pairwise_of_mem_iff hasymm t.sorted u.sorted ?_
    rintro ⟨k, v⟩
    rw [← get_eq_some_iff, ← get_eq_some_iff, h]
  cases u
  cases this
  rfl

theorem size_put_of_get_eq_none (v : ν) (h : t.get k = none) : (t.put k v).size = t.size + 1 := by
  have : ∀ es : List (κ × ν), lookup k es = none → (insertEntry k v es).length = es.length + 1 := by
    intro es
    induction es with
    | nil => simp [insertEntry]
    | cons =>
      intro hl
      unfold lookup at hl
      unfold insertEntry
      grind
  exact this t.entries h

theorem size_le_size_put (t : Table κ ν) (k : κ) (v : ν) : t.size ≤ (t.put k v).size := by
  have : ∀ es : List (κ × ν), es.length ≤ (insertEntry k v es).length := by
    intro es
    induction es with
    | nil => simp
    | cons =>
      unfold insertEntry
      grind
  exact this t.entries

end Table

/-! ## Prefix scans -/

section PrefixScan

variable {σ ν : Type} [Ord σ] [Std.LawfulEqOrd σ]

theorem compare_of_prefix {p k : List σ} (h : p <+: k) : compare k p ≠ .lt := by
  obtain ⟨t, rfl⟩ := h
  induction p with
  | nil => cases t <;> simp [List.compare_cons_nil]
  | cons a p ih => simpa [List.compare_cons_cons] using ih

theorem prefix_of_between : ∀ {p x y : List σ}, p <+: y → compare x p ≠ .lt →
    compare x y = .lt → p <+: x
  | [], x, y, _, _, _ => List.nil_prefix
  | a :: p, [], y, _, hx, _ => absurd List.compare_nil_cons hx
  | a :: p, c :: x, [], hp, _, _ => by simp at hp
  | a :: p, c :: x, b :: y, hp, hx, hxy => by
    obtain ⟨rfl, hp'⟩ := List.cons_prefix_cons.mp hp
    rw [List.compare_cons_cons] at hx hxy
    cases hca : compare c a with
    | lt => simp [hca] at hx
    | gt => simp [hca] at hxy
    | eq =>
      obtain rfl := Std.LawfulEqOrd.eq_of_compare hca
      simp only [hca, Ordering.eq_then] at hx hxy
      exact cons_prefix_cons.mpr ⟨rfl, prefix_of_between hp' hx hxy⟩

variable [Std.TransOrd σ] [BEq σ] [LawfulBEq σ]

/-- Seek the first key not below `low`. -/
def seek (low : List σ) (es : List (List σ × ν)) : List (List σ × ν) :=
  es.dropWhile (fun e => compare e.1 low == .lt)

/-- Seek `p` and walk on while the keys start with it. -/
def prefixScan (p : List σ) (es : List (List σ × ν)) : List (List σ × ν) :=
  (seek p es).takeWhile (fun e => p.isPrefixOf e.1)

variable {es : List (List σ × ν)} (h : es.Pairwise (fun x y => compare x.1 y.1 = .lt))

include h

omit [Std.LawfulEqOrd σ] [BEq σ] [LawfulBEq σ] in
theorem pairwise_below (k : List σ) :
    es.Pairwise (fun x y => (compare y.1 k == .lt) = true → (compare x.1 k == .lt) = true) := by
  refine h.imp ?_
  intro x y hxy hy
  simp only [beq_iff_eq] at hy ⊢
  exact Std.TransCmp.lt_trans hxy hy

omit [Std.LawfulEqOrd σ] [BEq σ] [LawfulBEq σ] in
theorem seek_eq_filter (k : List σ) : seek k es = es.filter (fun e => !(compare e.1 k == .lt)) :=
  (while_eq_filter (pairwise_below h k)).2

/-- **A prefix scan visits exactly the keys that start with the prefix.** -/
theorem prefixScan_eq_filter (p : List σ) :
    prefixScan p es = es.filter (fun e => p.isPrefixOf e.1) := by
  unfold prefixScan
  rw [seek_eq_filter h, (while_eq_filter ?_).1]
  · rw [filter_filter]
    refine filter_congr ?_
    intro e _
    by_cases hp : p <+: e.1
    · have := compare_of_prefix hp
      grind
    · simp [hp]
  · refine List.Pairwise.imp_of_mem ?_ (h.filter _)
    intro x y hx _ hxy hy
    have hx' : compare x.1 p ≠ .lt := by simpa using (mem_filter.mp hx).2
    rw [ isPrefixOf_iff_prefix] at hy ⊢
    exact prefix_of_between hy hx' hxy

end PrefixScan

end SortedTable
