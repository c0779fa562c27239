import Clojurust.Lib.Matching

/-!
# Insertion-ordered finite maps

A finite map over keys that a comparison identifies, with its live keys in the order in which they
came in. A list of entries represents such a map; the edits a representation makes to its list are
appending a new key, writing over the entry of a present one, and taking an entry out.

* `OrderedMap` — the values and the live keys; `OrderedMap.step`, `OrderedMap.run`;
* `Edit op l l'` — what an operation may do to a list of entries;
* `Represents.find?` — lookups; `Represents.edit` — an edit keeps the representation of the map the operation gives.
-/

namespace InsertionOrder

open Matching List

variable {κ ν : Type*}

/-- A finite map with its live keys in order. -/
structure OrderedMap (κ ν : Type*) where
  value : κ → Option ν
  keys : List κ

inductive Op (κ ν : Type*) where
  | assoc (key : κ) (value : ν)
  | dissoc (key : κ)

def Op.key : Op κ ν → κ
  | assoc key _ | dissoc key => key

namespace OrderedMap

variable (eq : κ → κ → Bool)

def empty : OrderedMap κ ν := ⟨fun _ => none, []⟩

/-- A key that is not live is appended; a live key stays where it is. -/
def assoc (key : κ) (v : ν) (m : OrderedMap κ ν) : OrderedMap κ ν where
  value := fun x => if eq key x then some v else m.value x
  keys := if (m.value key).isSome then m.keys else m.keys ++ [key]

def dissoc (key : κ) (m : OrderedMap κ ν) : OrderedMap κ ν where
  value := fun x => if eq key x then none else m.value x
  keys := m.keys.filter (fun x => !eq x key)

def step (m : OrderedMap κ ν) : Op κ ν → OrderedMap κ ν
  | .assoc key v => m.assoc eq key v
  | .dissoc key => m.dissoc eq key

/-- The map after a sequence of operations. -/
def run (m : OrderedMap κ ν) (operations : List (Op κ ν)) : OrderedMap κ ν :=
  operations.foldl (step eq) m

end OrderedMap

/-! ## Lists of entries -/

/-- What an operation may do to a list of entries. An entry that is written over keeps its key or
takes the new one. -/
inductive Edit (eq : κ → κ → Bool) : Op κ ν → List (κ × ν) → List (κ × ν) → Prop
  | append (key : κ) (v : ν) (l : List (κ × ν)) :
    (∀ e ∈ l, eq e.1 key = false) → Edit eq (.assoc key v) l (l ++ [(key, v)])
  | overwrite (key k k' : κ) (v w : ν) (l l' : List (κ × ν)) :
    eq k key = true → (k' = k ∨ k' = key) →
    Edit eq (.assoc key v) (l ++ (k, w) :: l') (l ++ (k', v) :: l')
  | remove (key : κ) (l : List (κ × ν)) :
    Edit eq (.dissoc key) l (l.filter (fun e => !eq e.1 key))

/-- The entries hold each live key once, in order, with its value. -/
structure Represents (eq : κ → κ → Bool) (K : Set κ) (l : List (κ × ν)) (m : OrderedMap κ ν) :
    Prop where
  mem : ∀ e ∈ l, e.1 ∈ K
  live : ∀ k ∈ m.keys, k ∈ K
  keys : List.Forall₂ (fun e k => eq e.1 k = true) l m.keys
  distinct : l.Pairwise (fun e e' => eq e.1 e'.1 = false)
  value : ∀ x ∈ K, ∀ v, m.value x = some v ↔ ∃ k, (k, v) ∈ l ∧ eq k x = true

variable {eq : κ → κ → Bool} {K : Set κ} {l l' : List (κ × ν)} {m : OrderedMap κ ν}

theorem represents_empty : Represents eq K [] (OrderedMap.empty : OrderedMap κ ν) where
  mem := by simp
  live := by simp [OrderedMap.empty]
  keys := List.Forall₂.nil
  distinct := List.Pairwise.nil
  value := by simp [OrderedMap.empty]

theorem Represents.isSome_iff (h : Represents eq K l m) {x : κ} (hx : x ∈ K) :
    (m.value x).isSome = true ↔ ∃ e ∈ l, eq e.1 x = true := by
  rw [Option.isSome_iff_exists]
  constructor
  · rintro ⟨v, hv⟩
    obtain ⟨k, hmem, hk⟩ := (h.value x hx v).mp hv
    exact ⟨(k, v), hmem, hk⟩
  · rintro ⟨⟨k, v⟩, hmem, hk⟩
    exact ⟨v, (h.value x hx v).mpr ⟨k, hmem, hk⟩⟩

theorem Represents.find? (h : Represents eq K l m) {x : κ} (hx : x ∈ K) :
    (l.find? (fun e => eq e.1 x)).map Prod.snd = m.value x := by
  cases hfind : l.find? (fun e => eq e.1 x) with
  | none =>
    cases hvalue : m.value x with
    | none => rfl
    | some v =>
      obtain ⟨k, hmem, hk⟩ := (h.value x hx v).mp hvalue
      grind
  | some e =>
    have hex : eq e.1 x = true := find?_some (p := fun e : κ × ν => eq e.1 x) hfind
    exact ((h.value x hx e.2).mpr ⟨e.1, mem_of_find?_eq_some hfind, hex⟩).symm

theorem forall₂_append_left {α β : Type*} {R : α → β → Prop} : ∀ {l l' : List α} {u : List β},
    List.Forall₂ R (l ++ l') u →
    ∃ u1 u2, u = u1 ++ u2 ∧ List.Forall₂ R l u1 ∧ List.Forall₂ R l' u2
  | [], _, u, h => ⟨[], u, rfl, .nil, h⟩
  | _ :: _, _, _, .cons hab h => by
    obtain ⟨u1, u2, rfl, h1, h2⟩ := forall₂_append_left h
    exact ⟨_ :: u1, u2, rfl, .cons hab h1, h2⟩

theorem forall₂_mem {α β : Type*} {R : α → β → Prop} : ∀ {l : List α} {u : List β},
    List.Forall₂ R l u → List.Forall₂ (fun a b => R a b ∧ a ∈ l ∧ b ∈ u) l u
  | [], [], .nil => .nil
  | _ :: _, _ :: _, .cons hab h => by
    refine .cons ⟨hab, (.head _), (.head _)⟩ ((forall₂_mem h).imp ?_)
    grind

section Edits

variable (hequiv : EquivOn eq K)

include hequiv

variable {key : κ} {v : ν} {k : κ} {w : ν}

theorem Represents.append (h : Represents eq K l m) (hkey : key ∈ K)
    (hnew : ∀ e ∈ l, eq e.1 key = false) :
    Represents eq K (l ++ [(key, v)]) (m.assoc eq key v) := by
  have hnone : ¬ (m.value key).isSome = true := by
    rw [h.isSome_iff hkey]
    rintro ⟨e, he, heq⟩
    rw [hnew e he] at heq
    cases heq
  have hkeys : (m.assoc eq key v).keys = m.keys ++ [key] := by simp [OrderedMap.assoc, hnone]
  constructor
  · intro e he
    rcases mem_append.mp he with he | he
    · exact h.mem e he
    · grind
  · rw [hkeys]
    intro k hk
    rcases mem_append.mp hk with hk | hk
    · exact h.live k hk
    · grind
  · rw [hkeys]
    exact rel_append h.keys (.cons (hequiv.refl key hkey) .nil)
  · refine pairwise_append.mpr ⟨h.distinct, pairwise_singleton _ _, ?_⟩
    grind
  · intro x hx w
    simp only [OrderedMap.assoc, mem_append, mem_singleton]
    by_cases heq : eq key x = true
    · rw [if_pos heq, Option.some_inj]
      constructor
      · grind
      · rintro ⟨k, hk | hk, hkx⟩
        · have hkK := h.mem _ hk
          grind
        · exact (Prod.mk.inj hk).2.symm
    · rw [if_neg heq, h.value x hx w]
      grind

theorem Represents.apart (h : Represents eq K (l ++ (k, w) :: l') m) {x : κ}
    (hx : x ∈ K) (hkx : eq k x = true) {e : κ × ν} (he : e ∈ l ∨ e ∈ l') : eq e.1 x = false := by
  have hk : k ∈ K := h.mem (k, w) (by simp)
  obtain ⟨-, hl', hl⟩ := pairwise_append.mp h.distinct
  by_contra heq
  rcases he with he | he
  · have heK : e.1 ∈ K := h.mem e (by simp [he])
    have hek := hl e he (k, w) (.head _)
    grind
  · have heK : e.1 ∈ K := h.mem e (by simp [he])
    have hke := (pairwise_cons.mp hl').1 e he
    grind

theorem Represents.value_overwrite {k' : κ}
    (h : Represents eq K (l ++ (k, w) :: l') m) (hkey : key ∈ K) (hk : eq k key = true)
    (hk'K : k' ∈ K) (hk'key : eq k' key = true) {x : κ} (hx : x ∈ K) (u : ν) :
    (m.assoc eq key v).value x = some u ↔ ∃ k1, (k1, u) ∈ l ++ (k', v) :: l' ∧ eq k1 x = true := by
  have hkK : k ∈ K := h.mem (k, w) (by simp)
  simp only [OrderedMap.assoc]
  by_cases heq : eq key x = true
  · have hkx := hequiv.trans _ hkK _ hkey _ hx hk heq
    rw [if_pos heq, Option.some_inj]
    constructor
    · grind
    · rintro ⟨k'', hmem, hk''⟩
      simp only [mem_append, mem_cons, Prod.mk.injEq] at hmem
      rcases hmem with hmem | ⟨-, hu⟩ | hmem
      · rw [h.apart hequiv hx hkx (.inl hmem)] at hk''
        cases hk''
      · exact hu.symm
      · rw [h.apart hequiv hx hkx (.inr hmem)] at hk''
        cases hk''
  · rw [if_neg heq, h.value x hx u]
    -- the entry in the middle is not the one asked for, before or after
    grind

theorem Represents.overwrite {k' : κ} (h : Represents eq K (l ++ (k, w) :: l') m)
    (hkey : key ∈ K) (hk : eq k key = true) (hk' : k' = k ∨ k' = key) :
    Represents eq K (l ++ (k', v) :: l') (m.assoc eq key v) := by
  have hkK : k ∈ K := h.mem (k, w) (by simp)
  -- the key that is written belongs to the class of the one that was there
  obtain ⟨hk'K, hkk', hk'key⟩ : k' ∈ K ∧ eq k k' = true ∧ eq k' key = true := by grind
  have hapart : ∀ e, e ∈ l ∨ e ∈ l' → eq e.1 k' = false :=
    fun e he => h.apart hequiv hk'K hkk' he
  have hlive : (m.assoc eq key v).keys = m.keys := by
    have : (m.value key).isSome = true := (h.isSome_iff hkey).mpr ⟨(k, w), by simp, hk⟩
    simp [OrderedMap.assoc, this]
  constructor
  · intro e he
    simp only [mem_append, mem_cons] at he
    rcases he with he | rfl | he
    · exact h.mem e (by simp [he])
    · exact hk'K
    · exact h.mem e (by simp [he])
  · rw [hlive]
    exact h.live
  · rw [hlive]
    obtain ⟨u, u', hu, hlu, hlu'⟩ := forall₂_append_left h.keys
    obtain ⟨k0, u'', hk0, hrest, rfl⟩ := List.forall₂_cons_left_iff.mp hlu'
    have hk₀K : k0 ∈ K := h.live k0 (by simp [hu])
    rw [hu]
    exact rel_append hlu (.cons (hequiv.left_cancel hk'K hk₀K hkK hkk' hk0) hrest)
  · obtain ⟨hl, hl', hcross⟩ := pairwise_append.mp h.distinct
    obtain ⟨hhead, htail⟩ := pairwise_cons.mp hl'
    refine pairwise_append.mpr ⟨hl, pairwise_cons.mpr ⟨?_, htail⟩, ?_⟩
    · intro e he
      by_contra heq
      have heK : e.1 ∈ K := h.mem e (by simp [he])
      grind
    · grind
  · intro x hx u
    exact h.value_overwrite hequiv hkey hk hk'K hk'key hx u

theorem Represents.remove (h : Represents eq K l m) (hkey : key ∈ K) :
    Represents eq K (l.filter (fun e => !eq e.1 key)) (m.dissoc eq key) := by
  constructor
  · intro e he
    exact h.mem e (mem_of_mem_filter he)
  · intro k hk
    exact h.live k (mem_of_mem_filter hk)
  · refine (rel_filter ?_ (forall₂_mem h.keys)).imp (fun e k hrel => hrel.1)
    intro e k hrel
    have heK := h.mem e hrel.2.1
    have hkK := h.live k hrel.2.2
    grind
  · exact h.distinct.filter _
  · intro x hx v
    simp only [OrderedMap.dissoc, mem_filter, Bool.not_eq_true']
    by_cases heq : eq key x = true
    · rw [if_pos heq]
      simp only [reduceCtorEq, false_iff]
      rintro ⟨k, ⟨hmem, hne⟩, hkx⟩
      have := hequiv.trans _ (h.mem _ hmem) _ hx _ hkey hkx (hequiv.symm _ hkey _ hx heq)
      grind
    · rw [if_neg heq, h.value x hx v]
      refine exists_congr fun k => and_congr_left fun hkx => ?_
      constructor
      · intro hmem
        refine ⟨hmem, ?_⟩
        rw [← Bool.not_eq_true]
        intro hk
        exact heq (hequiv.left_cancel hkey hx (h.mem _ hmem) hk hkx)
      · exact And.left

/-- **An edit follows the map**: its result represents the map the operation gives. -/
theorem Represents.edit {op : Op κ ν} (h : Represents eq K l m) (hkey : op.key ∈ K)
    (hedit : Edit eq op l l') : Represents eq K l' (m.step eq op) := by
  cases hedit with
  | append key v _ hnew => exact h.append hequiv hkey hnew
  | overwrite key k k' v w l1 l2 hk hk' => exact h.overwrite hequiv hkey hk hk'
  | remove => exact h.remove hequiv hkey

end Edits

end InsertionOrder
