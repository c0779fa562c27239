import Clojurust.Lib.Matching
import Clojurust.Value.Collections

/-!
# Lawful maps and sets

A collection is lawful when its keys are distinct and its lookups are lookups by `==`. Between
lawful collections equality is a matching of entries, and an equivalence when it is one on keys
and values.

* `MapValue.Lawful`, `SetValue.Lawful`;
* `matches_of_mapsEqual`, `matches_of_setsEqual` — the matching;
* `mapsEqual_self`, `mapsEqual_cancel`, `setsEqual_cancel` — the laws of an equivalence;
* `Indexes` — the index of a hash collection belongs to its entries; `lawful_hashMap` — then the
  collection is lawful, if equal keys have equal hashes.
-/

namespace Clojurust

open Matching List

variable {κ ν : Type} {ops : KeyOps κ} {K : Set κ}

/-- The keys are distinct and the lookups, of keys in `K`, are lookups by `==`. -/
@[grind cases]
structure MapValue.Lawful (ops : KeyOps κ) (K : Set κ) (m : MapValue κ ν) : Prop where
  count : m.count = m.iter.length
  distinct : (m.iter.map Prod.fst).Pairwise (fun x y => ops.eq x y = false)
  get : ∀ x ∈ K, m.get ops x = (m.iter.find? (fun entry => ops.eq entry.1 x)).map Prod.snd

@[grind cases]
structure SetValue.Lawful (ops : KeyOps κ) (K : Set κ) (s : SetValue κ) : Prop where
  count : s.count = s.iter.length
  distinct : s.iter.Pairwise (fun x y => ops.eq x y = false)
  contains : ∀ x ∈ K, s.contains ops x = s.iter.any (fun y => ops.eq y x)

/-! ## Equality as a matching of entries -/

variable {entry : κ × ν} {eqv : ν → ν → Bool} {a b : MapValue κ ν} {K' : Set κ} {m : MapValue κ ν}
  {s : SetValue κ}

theorem find?_eq_some_of_distinct {eq : κ → κ → Bool} (hequiv : EquivOn eq K) {x : κ}
    (hx : x ∈ K) (heq : eq entry.1 x = true) : ∀ {l : List (κ × ν)},
    (∀ e ∈ l, e.1 ∈ K) → (l.map Prod.fst).Pairwise (fun x y => eq x y = false) → entry ∈ l →
    l.find? (fun e => eq e.1 x) = some entry
  | e :: l, hK, hdistinct, hmem => by
    rw [map_cons, pairwise_cons] at hdistinct
    have hKe : e.1 ∈ K := hK e (.head _)
    have hKl : ∀ e ∈ l, e.1 ∈ K := fun e he => hK e (.tail _ he)
    rcases mem_cons.mp hmem with rfl | hmem
    · exact find?_cons_of_pos heq
    · have hne : eq e.1 x ≠ true := by
        intro h
        have hentry := hKl entry hmem
        have := hequiv.trans _ hKe _ hx _ hentry h (hequiv.symm _ hentry _ hx heq)
        rw [hdistinct.1 entry.1 (mem_map_of_mem hmem)] at this
        cases this
      simp only [find?_cons, hne]
      exact find?_eq_some_of_distinct hequiv hx heq hKl hdistinct.2 hmem

/-- The entries of two maps that equality pairs. -/
def EntryEq (eq : κ → κ → Bool) (eqv : ν → ν → Bool) (a b : κ × ν) : Prop :=
  eq b.1 a.1 = true ∧ eqv b.2 a.2 = true

theorem MapValue.mapsEqual_iff
    (hequiv : EquivOn ops.eq K) (ha : a.Lawful ops K) (hb : b.Lawful ops K)
    (hKa : ∀ e ∈ a.iter, e.1 ∈ K) (hKb : ∀ e ∈ b.iter, e.1 ∈ K) :
    a.mapsEqual ops eqv b = true ↔
      a.iter.length = b.iter.length ∧ ∀ e ∈ a.iter, ∃ e' ∈ b.iter, EntryEq ops.eq eqv e e' := by
  unfold mapsEqual
  rw [Bool.and_eq_true, beq_iff_eq, ha.count, hb.count, all_eq_true]
  refine and_congr_right fun _ => forall₂_congr fun e he => ?_
  rw [hb.get e.1 (hKa e he)]
  constructor
  · intro h
    cases hfind : b.iter.find? (fun entry => ops.eq entry.1 e.1) with
    | none => grind
    | some e' =>
      rw [hfind] at h
      exact ⟨e', mem_of_find?_eq_some hfind, by simpa using find?_some hfind, h⟩
  · rintro ⟨e', he', heq, hval⟩
    rw [find?_eq_some_of_distinct hequiv (hKa e he) heq hKb hb.distinct he']
    exact hval

theorem SetValue.setsEqual_iff {a b : SetValue κ} (ha : a.Lawful ops K) (hb : b.Lawful ops K)
    (hKa : ∀ x ∈ a.iter, x ∈ K) :
    a.setsEqual ops b = true ↔
      a.iter.length = b.iter.length ∧ ∀ x ∈ a.iter, ∃ y ∈ b.iter, ops.eq y x = true := by
  unfold setsEqual
  grind

theorem MapValue.matches_of_mapsEqual
    (hequiv : EquivOn ops.eq K) (ha : a.Lawful ops K) (hb : b.Lawful ops K)
    (hKa : ∀ e ∈ a.iter, e.1 ∈ K) (hKb : ∀ e ∈ b.iter, e.1 ∈ K)
    (h : a.mapsEqual ops eqv b = true) : Matches (EntryEq ops.eq eqv) a.iter b.iter := by
  obtain ⟨hlen, htotal⟩ := (mapsEqual_iff hequiv ha hb hKa hKb).mp h
  refine matches_of_injective hlen htotal ?_
  refine (pairwise_map.mp ha.distinct).imp_of_mem ?_
  intro e1 e2 he1 he2 hne e' he' h1 h2
  have := hequiv.left_cancel (hKa e1 he1) (hKa e2 he2) (hKb e' he') h1.1 h2.1
  grind

theorem SetValue.matches_of_setsEqual {a b : SetValue κ} (hequiv : EquivOn ops.eq K)
    (ha : a.Lawful ops K) (hb : b.Lawful ops K) (hKa : ∀ x ∈ a.iter, x ∈ K)
    (hKb : ∀ x ∈ b.iter, x ∈ K) (h : a.setsEqual ops b = true) :
    Matches (fun x y => ops.eq y x = true) a.iter b.iter := by
  obtain ⟨hlen, htotal⟩ := (setsEqual_iff ha hb hKa).mp h
  refine matches_of_injective hlen htotal ?_
  refine ha.distinct.imp_of_mem ?_
  grind

theorem MapValue.Lawful.mono (h : m.Lawful ops K') (hsub : K ⊆ K') : m.Lawful ops K :=
  ⟨h.count, h.distinct, fun x hx => h.get x (hsub hx)⟩

theorem SetValue.Lawful.mono (h : s.Lawful ops K') (hsub : K ⊆ K') : s.Lawful ops K :=
  ⟨h.count, h.distinct, fun x hx => h.contains x (hsub hx)⟩

/-! ## Equality as an equivalence -/

theorem find?_self (eq : κ → κ → Bool) (hrefl : eq entry.1 entry.1 = true) :
    ∀ {l : List (κ × ν)}, (l.map Prod.fst).Pairwise (fun x y => eq x y = false) → entry ∈ l →
    l.find? (fun e => eq e.1 entry.1) = some entry
  | e :: l, hdistinct, hmem => by
    rw [map_cons, pairwise_cons] at hdistinct
    rcases mem_cons.mp hmem with rfl | hmem
    · exact find?_cons_of_pos hrefl
    · simp only [find?_cons, hdistinct.1 entry.1 (mem_map_of_mem hmem)]
      exact find?_self eq hrefl hdistinct.2 hmem

theorem MapValue.mapsEqual_self (h : m.Lawful ops K) (hK : ∀ e ∈ m.iter, e.1 ∈ K)
    (hrefl : ∀ e ∈ m.iter, ops.eq e.1 e.1 = true ∧ eqv e.2 e.2 = true) :
    m.mapsEqual ops eqv m = true := by
  unfold mapsEqual
  rw [Bool.and_eq_true, beq_iff_eq, all_eq_true]
  refine ⟨rfl, ?_⟩
  intro e he
  rw [h.get e.1 (hK e he), find?_self ops.eq (hrefl e he).1 h.distinct he]
  exact (hrefl e he).2

section Equivalence

variable {eqv : ν → ν → Bool} {E : Set ν} {a b c : MapValue κ ν} (hequiv : EquivOn ops.eq K)
  (hval : EquivOn eqv E) (ha : a.Lawful ops K) (hb : b.Lawful ops K) (hc : c.Lawful ops K)
  (hKa : ∀ e ∈ a.iter, e.1 ∈ K ∧ e.2 ∈ E) (hKb : ∀ e ∈ b.iter, e.1 ∈ K ∧ e.2 ∈ E)
  (hKc : ∀ e ∈ c.iter, e.1 ∈ K ∧ e.2 ∈ E)

include hequiv hval ha hb hc hKa hKb hKc

theorem MapValue.mapsEqual_cancel (h : a.mapsEqual ops eqv b = true)
    (h' : a.mapsEqual ops eqv c = true) : b.mapsEqual ops eqv c = true := by
  have hKa' : ∀ e ∈ a.iter, e.1 ∈ K := fun e he => (hKa e he).1
  have hKb' : ∀ e ∈ b.iter, e.1 ∈ K := fun e he => (hKb e he).1
  have hKc' : ∀ e ∈ c.iter, e.1 ∈ K := fun e he => (hKc e he).1
  have hmatch := matches_of_mapsEqual hequiv ha hb hKa' hKb' h
  obtain ⟨hlen, -⟩ := (mapsEqual_iff hequiv ha hb hKa' hKb').mp h
  obtain ⟨hlen', htotal⟩ := (mapsEqual_iff hequiv ha hc hKa' hKc').mp h'
  refine (mapsEqual_iff hequiv hb hc hKb' hKc').mpr ⟨hlen.symm.trans hlen', ?_⟩
  intro e' he'
  obtain ⟨e, he, hkey, hvalue⟩ := hmatch.exists_left e' he'
  obtain ⟨e'', he'', hkey', hvalue'⟩ := htotal e he
  exact ⟨e'', he'', hequiv.right_cancel (hKc' e'' he'') (hKb' e' he') (hKa' e he) hkey' hkey,
    hval.right_cancel (hKc e'' he'').2 (hKb e' he').2 (hKa e he).2 hvalue' hvalue⟩

end Equivalence

theorem SetValue.setsEqual_cancel {a b c : SetValue κ} (hequiv : EquivOn ops.eq K)
    (ha : a.Lawful ops K) (hb : b.Lawful ops K) (hc : c.Lawful ops K) (hKa : ∀ x ∈ a.iter, x ∈ K)
    (hKb : ∀ x ∈ b.iter, x ∈ K) (hKc : ∀ x ∈ c.iter, x ∈ K) (h : a.setsEqual ops b = true)
    (h' : a.setsEqual ops c = true) : b.setsEqual ops c = true := by
  have hmatch := matches_of_setsEqual hequiv ha hb hKa hKb h
  obtain ⟨hlen, -⟩ := (setsEqual_iff ha hb hKa).mp h
  obtain ⟨hlen', htotal⟩ := (setsEqual_iff ha hc hKa).mp h'
  refine (setsEqual_iff hb hc hKb).mpr ⟨hlen.symm.trans hlen', ?_⟩
  intro y hy
  obtain ⟨x, hx, hyx⟩ := hmatch.exists_left y hy
  obtain ⟨z, hz, hzx⟩ := htotal x hx
  exact ⟨z, hz, hequiv.right_cancel (hKc z hz) (hKb y hy) (hKa x hx) hzx hyx⟩

/-! ## Hash collections -/

/-- The index has an entry for each key of the collection, under the same number, with a key that
is equal to it and hashes like it; no two keys of the index are equal with the same hash. -/
@[grind cases]
structure KeyOps.Indexes (ops : KeyOps κ) (index : List (κ × Nat)) (keys : List (Nat × κ)) : Prop where
  perm : (index.map Prod.snd).Perm (keys.map Prod.fst)
  nodup : (keys.map Prod.fst).Nodup
  agree : ∀ e ∈ index, ∀ k ∈ keys, k.1 = e.2 → ops.hash e.1 = ops.hash k.2 ∧ ops.eq e.1 k.2 = true
  distinct : index.Pairwise (fun e e' => ¬ (ops.hash e.1 = ops.hash e'.1 ∧ ops.eq e.1 e'.1 = true))

/-- On these keys `==` is an equivalence, and equal keys have equal hashes. -/
@[grind cases]
structure KeyOps.Sound (ops : KeyOps κ) (E : Set κ) : Prop where
  equiv : EquivOn ops.eq E
  hash : ∀ x ∈ E, ∀ y ∈ E, ops.eq x y = true → ops.hash x = ops.hash y

section Hashed

variable {index : List (κ × Nat)} {keys : List (Nat × κ)} {E : Set κ}
  (h : ops.Indexes index keys) (hops : ops.Sound E)
  (hindex : ∀ e ∈ index, e.1 ∈ E) (hkeys : ∀ k ∈ keys, k.2 ∈ E)

variable {e : κ × Nat}

include h in
theorem KeyOps.Indexes.exists_key (he : e ∈ index) : ∃ k ∈ keys, k.1 = e.2 := by
  have hmem : e.2 ∈ keys.map Prod.fst := h.perm.mem_iff.mp (mem_map_of_mem he)
  exact mem_map.mp hmem

include h in
theorem KeyOps.Indexes.exists_index {k : Nat × κ} (hk : k ∈ keys) : ∃ e ∈ index, e.2 = k.1 := by
  have hmem : k.1 ∈ index.map Prod.snd := h.perm.mem_iff.mpr (mem_map_of_mem hk)
  exact mem_map.mp hmem

include h hops hindex

theorem KeyOps.Indexes.eq_of_keys {e' : κ × Nat} (he : e ∈ index) (he' : e' ∈ index)
    (heq : ops.eq e.1 e'.1 = true) : e = e' := by
  by_contra hne
  have hE := hindex e he
  have hE' := hindex e' he'
  rcases pairwise_or h.distinct he he' hne with hpair | hpair
  all_goals grind

include hkeys

theorem KeyOps.Indexes.indexed_iff {x : κ} (hx : x ∈ E) (seq : Nat) :
    (∃ k', ops.indexed index x = some (k', seq)) ↔ ∃ k, (seq, k) ∈ keys ∧ ops.eq k x = true := by
  constructor
  · rintro ⟨k', hfind⟩
    have he : (k', seq) ∈ index := mem_of_find?_eq_some hfind
    have hmatch := find?_some hfind
    obtain ⟨⟨seq', k⟩, hk, rfl⟩ := h.exists_key he
    grind
  · rintro ⟨k, hk, hkx⟩
    obtain ⟨⟨k', seq'⟩, he, rfl⟩ := h.exists_index hk
    have hagree := (h.agree _ he _ hk rfl).2
    have hk'x : ops.eq k' x = true :=
      hops.equiv.trans _ (hindex _ he) _ (hkeys _ hk) _ hx hagree hkx
    cases hfind : ops.indexed index x with
    | none =>
      have := find?_eq_none.mp hfind _ he
      grind
    | some found =>
      have hmem : found ∈ index := mem_of_find?_eq_some hfind
      have hmatch := find?_some hfind
      simp only [Bool.and_eq_true, beq_iff_eq] at hmatch
      have heq : ops.eq k' found.1 = true := hops.equiv.trans _ (hindex _ he) _ hx _ (hindex _ hmem)
        hk'x (hops.equiv.symm _ (hindex _ hmem) _ hx hmatch.2)
      exact ⟨k', congrArg some (h.eq_of_keys hops hindex he hmem heq).symm⟩

theorem KeyOps.Indexes.keys_distinct : keys.Pairwise (fun k k' => ops.eq k.2 k'.2 = false) := by
  refine (pairwise_map.mp h.nodup).imp_of_mem ?_
  intro k k' hk hk' hne
  by_contra heq
  rw [Bool.not_eq_false] at heq
  obtain ⟨e, he, hek⟩ := h.exists_index hk
  obtain ⟨e', he', hek'⟩ := h.exists_index hk'
  have hE := hindex e he
  have hE' := hindex e' he'
  have hstep := hops.equiv.trans _ hE _ (hkeys k hk) _ (hkeys k' hk') (h.agree e he k hk hek.symm).2 heq
  have hsame := hops.equiv.trans _ hE _ (hkeys k' hk') _ hE' hstep
    (hops.equiv.symm _ hE' _ (hkeys k' hk') (h.agree e' he' k' hk' hek'.symm).2)
  have := h.eq_of_keys hops hindex he he' hsame
  exact hne (by rw [← hek, ← hek', this])

end Hashed

/-- What a representation guarantees of a map. A sorted map has to be lawful by its order. -/
def MapValue.Built (ops : KeyOps κ) (K : Set κ) : MapValue κ ν → Prop
  | array entries => (entries.map Prod.fst).Pairwise (fun x y => ops.eq x y = false)
  | hash m => ops.Indexes m.index (m.order.map (fun entry => (entry.1, entry.2.1)))
  | sorted tree => (sorted tree).Lawful ops K
  | sortedBy pairs => (pairs.map Prod.fst).Pairwise (fun x y => ops.eq x y = false)

def SetValue.Built (ops : KeyOps κ) (K : Set κ) : SetValue κ → Prop
  | hash s => ops.Indexes s.index s.order
  | sorted tree => (sorted tree).Lawful ops K
  | sortedBy items => items.Pairwise (fun x y => ops.eq x y = false)

theorem MapValue.Built.mono (h : m.Built ops K') (hsub : K ⊆ K') : m.Built ops K := by
  cases m with
  | sorted => exact MapValue.Lawful.mono h hsub
  | _ => exact h

theorem SetValue.Built.mono (h : s.Built ops K') (hsub : K ⊆ K') : s.Built ops K := by
  cases s with
  | sorted => exact SetValue.Lawful.mono h hsub
  | _ => exact h

section Built

variable {E : Set κ} (hops : ops.Sound E) (hK : K ⊆ E)

include hops hK

theorem lawful_hashMap {m : PersistentHashMap κ ν}
    (h : ops.Indexes m.index (m.order.map (fun entry => (entry.1, entry.2.1))))
    (hindex : ∀ e ∈ m.index, e.1 ∈ E) (horder : ∀ o ∈ m.order, o.2.1 ∈ E) :
    (MapValue.hash m).Lawful ops K := by
  have hkeys : ∀ k ∈ m.order.map (fun entry => (entry.1, entry.2.1)), k.2 ∈ E := by
    intro k hk
    obtain ⟨o, ho, rfl⟩ := mem_map.mp hk
    exact horder o ho
  have hdistinct := h.keys_distinct hops hindex hkeys
  have hdistinct' : ((m.order.map Prod.snd).map Prod.fst).Pairwise
      (fun x y => ops.eq x y = false) := by
    simp only [pairwise_map] at hdistinct ⊢
    exact hdistinct
  refine ⟨?_, hdistinct', ?_⟩
  · have := h.perm.length_eq
    simpa [MapValue.count, MapValue.iter] using this
  · intro x hx
    have hiff := h.indexed_iff hops hindex hkeys (hK hx)
    simp only [MapValue.get, MapValue.iter]
    cases hfind : ops.indexed m.index x with
    | none =>
      have hnone : (m.order.map Prod.snd).find? (fun entry => ops.eq entry.1 x) = none := by
        rw [find?_eq_none]
        intro entry hentry heq
        obtain ⟨o, ho, rfl⟩ := mem_map.mp hentry
        obtain ⟨k', hk'⟩ := (hiff o.1).mpr ⟨o.2.1, mem_map_of_mem (f := fun entry =>
          (entry.1, entry.2.1)) ho, heq⟩
        rw [hfind] at hk'
        cases hk'
      rw [hnone]
      rfl
    | some found =>
      obtain ⟨k', seq⟩ := found
      obtain ⟨k, hk, hkx⟩ := (hiff seq).mp ⟨k', hfind⟩
      obtain ⟨o, ho, heq⟩ := mem_map.mp hk
      obtain ⟨rfl, rfl⟩ := Prod.mk.inj heq
      have hkeys' : ∀ e ∈ m.order.map Prod.snd, e.1 ∈ E := by
        intro e he
        obtain ⟨o', ho', rfl⟩ := mem_map.mp he
        exact horder o' ho'
      have hseq : m.order.find? (fun entry => entry.1 == o.1) = some o := by
        refine find?_self (fun s s' : Nat => s == s') (beq_self_eq_true _) ?_ ho
        have hnodup := h.nodup
        rw [map_map] at hnodup
        exact hnodup.imp (fun hne => beq_false_of_ne hne)
      simp only [hseq]
      rw [find?_eq_some_of_distinct hops.equiv (hK hx) hkx hkeys' hdistinct' (mem_map_of_mem ho)]
      rfl

theorem lawful_hashSet {s : PersistentHashSet κ} (h : ops.Indexes s.index s.order)
    (hindex : ∀ e ∈ s.index, e.1 ∈ E) (horder : ∀ o ∈ s.order, o.2 ∈ E) :
    (SetValue.hash s).Lawful ops K := by
  refine ⟨?_, ?_, ?_⟩
  · have := h.perm.length_eq
    simpa [SetValue.count, SetValue.iter] using this
  · exact pairwise_map.mpr (h.keys_distinct hops hindex horder)
  · intro x hx
    have hiff := h.indexed_iff hops hindex horder (hK hx)
    simp only [SetValue.contains, SetValue.iter]
    rw [Bool.eq_iff_iff, Option.isSome_iff_exists, any_eq_true]
    constructor
    · rintro ⟨⟨k', seq⟩, hfind⟩
      obtain ⟨k, hk, hkx⟩ := (hiff seq).mp ⟨k', hfind⟩
      exact ⟨k, mem_map_of_mem hk, hkx⟩
    · rintro ⟨k, hk, hkx⟩
      obtain ⟨o, ho, rfl⟩ := mem_map.mp hk
      obtain ⟨k', hfind⟩ := (hiff o.1).mpr ⟨o.2, ho, hkx⟩
      exact ⟨_, hfind⟩

theorem MapValue.Built.lawful {m : MapValue κ κ} (h : m.Built ops K)
    (hmembers : ∀ x ∈ m.members, x ∈ E) : m.Lawful ops K := by
  cases m with
  | array | sortedBy => exact ⟨rfl, h, fun _ _ => rfl⟩
  | sorted => exact h
  | hash m =>
    refine lawful_hashMap hops hK h ?_ ?_
    · intro e he
      exact hmembers e.1 (mem_append_left _ (mem_map_of_mem he))
    · intro o ho
      exact hmembers o.2.1 (MapValue.mem_members (m := .hash m) (mem_map_of_mem ho)).1

theorem SetValue.Built.lawful (h : s.Built ops K)
    (hmembers : ∀ x ∈ s.members, x ∈ E) : s.Lawful ops K := by
  cases s with
  | sortedBy => exact ⟨rfl, h, fun _ _ => rfl⟩
  | sorted => exact h
  | hash s =>
    refine lawful_hashSet hops hK h ?_ ?_
    · intro e he
      exact hmembers e.1 (mem_append_left _ (mem_map_of_mem he))
    · intro o ho
      exact hmembers o.2 (mem_append_right _ (mem_map_of_mem ho))

end Built

end Clojurust
