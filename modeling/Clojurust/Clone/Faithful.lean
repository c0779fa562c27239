import Clojurust.Clone.Wire

/-!
# What structured clone keeps

`serialize` fails exactly when a leaf that cannot leave the isolate is somewhere in the value
(`isOk_serialize`). When the value is data, what comes out in the other isolate is built anew from
it (`Cloneable.serialize_shows`): the same metadata at every level, every sequence, map and set in
the same order, and so a value equal to it. A lazy seq whose thunk fails is the one part that
crosses as something else.
-/

namespace Clojurust.Clone

open Value Matching List

/-! ## Errors -/

section Errors

variable {ε α β γ : Type}

theorem isOk_map (x : Except ε α) (f : α → β) : (f <$> x).isOk = x.isOk := by
  cases x <;> rfl

theorem isOk_map₂ (x : Except ε α) (y : Except ε β) (f : α → β → γ) :
    (do let a ← x; f a <$> y : Except ε γ).isOk = (x.isOk && y.isOk) := by
  cases x <;> cases y <;> rfl

attribute [local simp] serialize isOk_map isOk_map₂ Live.any Live.isLeaf

mutual

/-- **Nothing else is an error**: what is serialized has no leaf that cannot be shared. -/
theorem isOk_serialize : ∀ x : Live, (serialize x).isOk = !x.any Live.isLeaf
  | .withMeta inner metadata => by
    simp [isOk_serialize inner, isOk_serialize metadata]
  | .reduced inner => by
    simp [isOk_serialize inner]
  | .scalar s => rfl
  | .list items | .vector items => by
    simp [isOk_serializeAll items]
  | .map kind entries => by
    simp [isOk_serializePairs entries]
  | .set kind items | .queue items => by
    simp [isOk_serializeAll items]
  | .cons head tail => by
    simp [isOk_serialize head, isOk_serialize tail]
  | .typeInstance typeTag fields => by
    simp [isOk_serializePairs fields]
  | .lazySeq cell realized => by
    simp [isOk_serialize realized]
  | .failedSeq cell message => rfl
  | .forcedDelay v => by
    simp [isOk_serialize v]
  | .leaf kind => rfl

theorem isOk_serializeAll : ∀ items : List Live,
    (serializeAll items).isOk = !anyItem Live.isLeaf items
  | [] => rfl
  | item :: items => by
    simp [serializeAll, isOk_serialize item, isOk_serializeAll items, anyItem]

theorem isOk_serializePairs : ∀ entries : List (Live × Live),
    (serializePairs entries).isOk = !anyEntry Live.isLeaf entries
  | [] => rfl
  | (key, value) :: entries => by
    have hkey := isOk_serialize key
    have hvalue := isOk_serialize value
    have hrest := isOk_serializePairs entries
    simp only [anyEntry, Bool.not_or, ← hkey, ← hvalue, ← hrest, serializePairs]
    cases serialize key with
    | error e => cases serialize value <;> rfl
    | ok k =>
      cases serialize value with
      | error e => rfl
      | ok v => exact isOk_map _ _

end

theorem exists_error_iff (x : Except ε α) : (∃ e, x = .error e) ↔ x.isOk = false := by
  cases x <;> simp [Except.isOk, Except.toBool]

end Errors

/-! ## Sorted collections -/

section Sorted

variable {num : Numerics} {K : Set Value}

theorem cmp_self (x : Value) : x.cmp num x = .eq := by
  have hswap : x.cmp num x = (x.cmp num x).swap := cmp_swap x x
  cases h : x.cmp num x with
  | eq => rfl
  | lt | gt => rw [h] at hswap; cases hswap

variable {keys : List Value}

theorem ascending_of_orders (h : (keyOps num).Orders K keys)
    (hK : ∀ k ∈ keys, k ∈ K) : keys.Pairwise (fun x y => y.cmp num x = .gt) := by
  refine pairwise_iff_forall_sublist.mpr ?_
  intro x y hsub
  have hy : y ∈ keys := hsub.subset (by simp)
  have hbehind := pairwise_iff_forall_sublist.mp (h y (hK y hy)).1 hsub
  by_contra hne
  have hself : y.cmp num y = .lt := hbehind hne
  rw [cmp_self] at hself
  cases hself

theorem orders_of_consistent (hK : Consistent num K) {α : Type} {key : α → Value} {t : Tree α}
    (hkeys : ∀ e ∈ t.toList, key e ∈ K) (h : t.Ordered (cmp num) key) :
    (keyOps num).Orders K (t.toList.map key) := by
  have htotal := hK.toExact.totalOn
  have htie : ∀ x ∈ K, ∀ y ∈ K, (keyOps num).cmp x y = .eq ↔ (keyOps num).eq x y = true :=
    fun x hx y hy => hK.cmp_eq_iff hx hy
  intro k hk
  constructor
  · refine pairwise_map.mpr (List.Pairwise.imp_of_mem ?_ h)
    intro e e' he he' hlt hle
    cases hcmp : k.cmp num (key e) with
    | lt => exact htotal.lt_trans hk (hkeys e he) (hkeys e' he') hcmp hlt
    | eq => exact htotal.lt_of_eq_of_lt hk (hkeys e he) (hkeys e' he') hcmp hlt
    | gt => exact absurd hcmp hle
  · intro x hx
    obtain ⟨e, he, rfl⟩ := mem_map.mp hx
    exact tied_iff htotal htie hk (hkeys e he)

theorem ascending_rebuilt {n : Nat} (hA : Agree num K n) (heager : ∀ x ∈ keys, x.Eager)
    {keys' : List Value} (h : List.Forall₂ (Rebuilt num K) keys keys')
    (hkeys : ∀ k ∈ keys, k ∈ upTo K n) (horders : (keyOps num).Orders K keys) :
    keys'.Pairwise (fun x y => y.cmp num x = .gt) := by
  refine pairwise_of_forall₂ h (ascending_of_orders horders fun k hk => (hkeys k hk).1) ?_
  intro x hx y hy x' y' hxx' hyy' hgt
  calc y'.cmp num x' = y.cmp num x' := hA.cmp y (hkeys y hy) (heager y hy) y' (.inr hyy') x'
    _ = (x'.cmp num y).swap := cmp_swap y x'
    _ = (x.cmp num y).swap := by rw [hA.cmp x (hkeys x hx) (heager x hx) x' (.inr hxx') y]
    _ = y.cmp num x := (cmp_swap y x).symm
    _ = .gt := hgt

end Sorted

/-! ## Data -/

/-- A class of values that can cross: closed under metadata, with sorted collections whose order
finds the keys in `K`. -/
structure Cloneable (num : Numerics) (K D : Set Value) : Prop extends Clean num K D where
  metadata : ∀ inner m, Value.withMeta inner m ∈ D → m ∈ D
  sortedMaps : ∀ t, Value.map (.sorted t) ∈ D → (keyOps num).Orders K (t.toList.map Prod.fst)
  sortedSets : ∀ t, Value.set (.sorted t) ∈ D → (keyOps num).Orders K t.toList

section Data

variable {num : Numerics} {K D : Set Value} (hK : Tidy num K) (hD : Cloneable num K D)

include hK hD

variable {m : MapValue Value Value}

omit hK in
theorem Cloneable.entries_mem {v : Value} (hv : v ∈ D)
    (hm : v.HasMap m) : ∀ e ∈ m.iter, e.1 ∈ D ∧ e.2 ∈ D := by
  intro e he
  have hmem := MapValue.mem_members he
  rw [← hm.children] at hmem
  exact ⟨hD.children v hv _ hmem.1, hD.children v hv _ hmem.2⟩

theorem Cloneable.rebuilt_sortedMap {t : Tree (Value × Value)} (ht : Value.map (.sorted t) ∈ D)
    {pairs : List (Value × Value)}
    (hkeys : List.Forall₂ (Rebuilt num K) (t.toList.map Prod.fst) (pairs.map Prod.fst))
    (hvalues : List.Forall₂ (Rebuilt num K) (t.toList.map Prod.snd) (pairs.map Prod.snd)) :
    Rebuilt num K (.map (.sorted t)) (.map (.sorted (sortedFromPairs num pairs))) := by
  have hA := hK.agree (Value.map (.sorted t)).size
  have hinside := hD.mapInside ht (.map (.sorted t))
  have hascending := ascending_rebuilt hA (hD.eager _ ht rfl) hkeys hinside.held (hD.sortedMaps t ht)
  have hiter : (sortedFromPairs num pairs).toList = pairs :=
    Tree.toList_foldl_insert (fun (e' e : Value × Value) => e'.1.cmp num e.1) (t := .leaf)
      (pairwise_map.mp hascending)
  refine .map ?_ ?_ (.inr ⟨t, _, rfl, rfl, hD.sortedMaps t ht⟩)
  · rwa [MapValue.iter, MapValue.iter, hiter]
  · rwa [MapValue.iter, MapValue.iter, hiter]

theorem Cloneable.rebuilt_sortedSet {t : Tree Value} (ht : Value.set (.sorted t) ∈ D)
    {items : List Value} (h : List.Forall₂ (Rebuilt num K) t.toList items) :
    Rebuilt num K (.set (.sorted t)) (.set (.sorted (sortedFromItems num items))) := by
  have hA := hK.agree (Value.set (.sorted t)).size
  have hinside := hD.setInside ht
  have hascending := ascending_rebuilt hA (hD.eager _ ht rfl) h
    (fun k hk => hinside.held k (SetValue.mem_members hk)) (hD.sortedSets t ht)
  have hiter : (sortedFromItems num items).toList = items :=
    Tree.toList_foldl_insert (cmp num) (t := .leaf) hascending
  refine .set ?_ (.inr ⟨t, _, rfl, rfl, hD.sortedSets t ht⟩)
  rwa [SetValue.iter, SetValue.iter, hiter]

theorem Cloneable.rebuilt_map (hm : Value.map m ∈ D)
    {pairs : List (SerializedValue × SerializedValue)}
    (hkeys : List.Forall₂ (Rebuilt num K) (m.iter.map Prod.fst)
      ((deserializePairs num pairs).map Prod.fst))
    (hvalues : List.Forall₂ (Rebuilt num K) (m.iter.map Prod.snd)
      ((deserializePairs num pairs).map Prod.snd)) :
    Rebuilt num K (.map m) (deserialize num (serializedMap pairs (mapKind m))) := by
  have hplain : Rebuilt num K (.map m)
      (.map (.fromPairs (keyOps num) (deserializePairs num pairs))) := by
    obtain ⟨hunsorted, hiter⟩ := hD.unsorted_fromPairs hK hm (.map m) hkeys
    refine .map ?_ ?_ (.inl hunsorted)
    · rwa [hiter]
    · rwa [hiter]
  cases m with
  | array | hash => exact hplain
  | sorted t => exact hD.rebuilt_sortedMap hK hm hkeys hvalues
  | sortedBy => exact hplain

theorem Cloneable.rebuilt_set {s : SetValue Value} (hs : Value.set s ∈ D)
    {items : List SerializedValue}
    (h : List.Forall₂ (Rebuilt num K) s.iter (deserializeAll num items)) :
    Rebuilt num K (.set s) (deserialize num (serializedSet items (setKind s))) := by
  have hplain := hD.rebuilt_conj hK hs h
  cases s with
  | hash s => exact hplain
  | sorted t => exact hD.rebuilt_sortedSet hK hs h
  | sortedBy => exact hplain

set_option linter.unusedSectionVars false in
mutual

/-- **Data crosses and is built anew.** -/
theorem Cloneable.serialize_shows : ∀ {x : Live} {v : Value}, v ∈ D → x.Shows v →
    ∃ w, serialize x = .ok w ∧ Rebuilt num K v (deserialize num w)
  | .scalar s, _, _, h => by
    obtain rfl := h
    exact ⟨_, rfl, .scalar s.2⟩
  | .list items, .list vs, hv, h => by
    obtain ⟨ws, hws, hall⟩ := Cloneable.serializeAll_shows (hD.children _ hv) h
    exact ⟨.list ws, by rw [serialize, hws]; rfl, .list hall⟩
  | .vector items, .vector vs, hv, h => by
    obtain ⟨ws, hws, hall⟩ := Cloneable.serializeAll_shows (hD.children _ hv) h
    exact ⟨.vector ws, by rw [serialize, hws]; rfl, .vector hall⟩
  | .map kind entries, .map m, hv, h => by
    obtain ⟨rfl, hentries⟩ := h
    obtain ⟨ws, hws, hkeys, hvalues⟩ :=
      Cloneable.serializePairs_shows (hD.entries_mem hv (.map m)) hentries
    exact ⟨_, by rw [serialize, hws]; rfl, hD.rebuilt_map hK hv hkeys hvalues⟩
  | .set kind items, .set s, hv, h => by
    obtain ⟨rfl, hitems⟩ := h
    obtain ⟨ws, hws, hall⟩ := Cloneable.serializeAll_shows
      (fun x hx => hD.children _ hv x (SetValue.mem_members hx)) hitems
    exact ⟨_, by rw [serialize, hws]; rfl, hD.rebuilt_set hK hv hall⟩
  | .queue items, .queue front rear, hv, h => by
    obtain ⟨ws, hws, hall⟩ := Cloneable.serializeAll_shows (hD.children _ hv) h
    exact ⟨.queue ws, by rw [serialize, hws]; rfl, .queue hall⟩
  | .cons head tail, .cons head' tail', hv, h => by
    obtain ⟨w, hw, hhead⟩ :=
      Cloneable.serialize_shows (hD.children _ hv head' (by simp [children])) h.1
    obtain ⟨w', hw', htail⟩ :=
      Cloneable.serialize_shows (hD.children _ hv tail' (by simp [children])) h.2
    exact ⟨.cons w w', by rw [serialize, hw, hw']; rfl, .cons hhead htail⟩
  | .typeInstance typeTag fields, .typeInstance typeTag' m, hv, h => by
    obtain ⟨rfl, hfields⟩ := h
    obtain ⟨ws, hws, hkeys, hvalues⟩ :=
      Cloneable.serializePairs_shows (hD.entries_mem hv (.typeInstance typeTag m)) hfields
    obtain ⟨hunsorted, hiter⟩ := hD.unsorted_fromPairs hK hv (.typeInstance typeTag m) hkeys
    refine ⟨.typeInstance typeTag ws, by rw [serialize, hws]; rfl,
      .typeInstance ?_ ?_ (.inl hunsorted)⟩
    all_goals grind
  | .lazySeq cell realized, .lazySeq cell' realized', hv, h => by
    obtain ⟨rfl, hrealized⟩ := h
    obtain ⟨w, hw, hrebuilt⟩ :=
      Cloneable.serialize_shows (hD.children _ hv realized' (by simp [children])) hrealized
    exact ⟨w, by rw [serialize, hw], .lazySeq hrebuilt⟩
  | .withMeta inner metadata, .withMeta inner' metadata', hv, h => by
    obtain ⟨w, hw, hinner⟩ :=
      Cloneable.serialize_shows (hD.children _ hv inner' (by simp [children])) h.1
    obtain ⟨w', hw', hmeta⟩ := Cloneable.serialize_shows (hD.metadata _ _ hv) h.2
    exact ⟨.withMeta w w', by rw [serialize, hw, hw']; rfl, .withMeta hinner hmeta⟩
  | .reduced inner, .reduced inner', hv, h => by
    obtain ⟨w, hw, hinner⟩ :=
      Cloneable.serialize_shows (hD.children _ hv inner' (by simp [children])) h
    exact ⟨.reduced w, by rw [serialize, hw]; rfl, .reduced hinner⟩

theorem Cloneable.serializeAll_shows : ∀ {xs : List Live} {vs : List Value}, (∀ v ∈ vs, v ∈ D) →
    ShowsAll xs vs → ∃ ws, serializeAll xs = .ok ws ∧
      List.Forall₂ (Rebuilt num K) vs (deserializeAll num ws)
  | [], [], _, _ => ⟨[], rfl, .nil⟩
  | x :: xs, v :: vs, hvs, h => by
    rw [forall_mem_cons] at hvs
    obtain ⟨w, hw, hrebuilt⟩ := Cloneable.serialize_shows hvs.1 h.1
    obtain ⟨ws, hws, hall⟩ := Cloneable.serializeAll_shows hvs.2 h.2
    exact ⟨w :: ws, by rw [serializeAll, hw, hws]; rfl, .cons hrebuilt hall⟩

theorem Cloneable.serializePairs_shows : ∀ {entries : List (Live × Live)}
    {pairs : List (Value × Value)}, (∀ p ∈ pairs, p.1 ∈ D ∧ p.2 ∈ D) → ShowsPairs entries pairs →
    ∃ ws, serializePairs entries = .ok ws ∧
      List.Forall₂ (Rebuilt num K) (pairs.map Prod.fst) ((deserializePairs num ws).map Prod.fst) ∧
      List.Forall₂ (Rebuilt num K) (pairs.map Prod.snd) ((deserializePairs num ws).map Prod.snd)
  | [], [], _, _ => ⟨[], rfl, .nil, .nil⟩
  | (key, value) :: entries, (k, v) :: pairs, hpairs, h => by
    rw [forall_mem_cons] at hpairs
    obtain ⟨wk, hwk, hkey⟩ := Cloneable.serialize_shows hpairs.1.1 h.1
    obtain ⟨wv, hwv, hvalue⟩ := Cloneable.serialize_shows hpairs.1.2 h.2.1
    obtain ⟨ws, hws, hkeys, hvalues⟩ := Cloneable.serializePairs_shows hpairs.2 h.2.2
    exact ⟨(wk, wv) :: ws, by rw [serializePairs, hwk, hwv, hws]; rfl, .cons hkey hkeys,
      .cons hvalue hvalues⟩

end

end Data

/-! ## The contract -/

/-- What is promised of a live value: an error when it has a leaf that cannot be shared or a lazy
part that fails, and else a value built anew from it and equal to it. -/
def Faithful (num : Numerics) (K D : Set Value) (x : Live) : Prop :=
  (x.any Live.isLeaf = true ∨ x.any Live.isFailed = true → ∃ e, serialize x = .error e) ∧
    ∀ v ∈ D, x.Shows v → ∃ w, serialize x = .ok w ∧ Rebuilt num K v (deserialize num w) ∧
      v.eq num (deserialize num w) = true ∧ (deserialize num w).eq num v = true

/-- `^{1 nil} [(lazy-seq '(1)) (sorted-set 1 7N)]`. -/
def parcel : Value :=
  .withMeta (.vector [.lazySeq 0 (.list [.long 1]),
      .set (.sorted (.node .leaf (.long 1) (.node .leaf (.bigInt 7) .leaf)))])
    (.map (.array [(.long 1, .nil)]))

theorem isScalar_nil : Value.isScalar .nil = true := rfl

def liveParcel : Live :=
  .withMeta (.vector [.lazySeq 0 (.list [.scalar ⟨.long 1, rfl⟩]),
      .set .sorted [.scalar ⟨.long 1, rfl⟩, .scalar ⟨.bigInt 7, rfl⟩]])
    (.map .array [(.scalar ⟨.long 1, rfl⟩, .scalar ⟨.nil, isScalar_nil⟩)])

/-- What is in the parcel. -/
inductive InParcel : Value → Prop
  | whole : InParcel parcel
  | inner : InParcel (.vector [.lazySeq 0 (.list [.long 1]),
      .set (.sorted (.node .leaf (.long 1) (.node .leaf (.bigInt 7) .leaf)))])
  | delayed : InParcel (.lazySeq 0 (.list [.long 1]))
  | items : InParcel (.list [.long 1])
  | sorted : InParcel (.set (.sorted (.node .leaf (.long 1) (.node .leaf (.bigInt 7) .leaf))))
  | metadata : InParcel (.map (.array [(.long 1, .nil)]))
  | nothing : InParcel .nil
  | one : InParcel (.long 1)
  | seven : InParcel (.bigInt 7)

theorem ascending_tidy : Tidy exactNumerics ascending := by
  refine .of_isBasic ascending_consistent.children ?_
  rintro v (rfl | rfl | rfl | rfl) <;> decide

theorem parcel_cloneable : Cloneable exactNumerics ascending {v | InParcel v} := by
  have hone : Value.long 1 ∈ ascending := .inl rfl
  have hseven : Value.bigInt 7 ∈ ascending := .inr (.inr (.inl rfl))
  have hkeys : ∀ k ∈ [Value.long 1, .bigInt 7], k ∈ ascending := by
    simp only [forall_mem_cons]
    exact ⟨hone, hseven, forall_mem_nil _⟩
  have hordered : (Tree.node .leaf (.long 1) (.node .leaf (.bigInt 7) .leaf)).Ordered
      (cmp exactNumerics) id := by
    have hlt : (Value.long 1).cmp exactNumerics (.bigInt 7) = .lt := by decide
    simp [Tree.Ordered, Tree.toList, hlt]
  have horders := orders_of_consistent ascending_consistent hkeys hordered
  have htie : ∀ x ∈ ascending, ∀ y ∈ ascending, (keyOps exactNumerics).cmp x y = .eq ↔
      (keyOps exactNumerics).eq x y = true := fun x hx y hy => ascending_consistent.cmp_eq_iff hx hy
  have hlawful : (SetValue.sorted (.node .leaf (.long 1) (.node .leaf (.bigInt 7) .leaf))).Lawful
      (keyOps exactNumerics) ascending :=
    lawful_sortedSet ascending_consistent.toExact.totalOn htie hkeys hordered
  refine ⟨⟨?_, ?_, ?_, ?_, ?_, ?_⟩, ?_, ?_, ?_⟩
  · intro v hv
    cases hv with
    | whole => exact forall_mem_singleton.mpr .inner
    | inner => exact forall_mem_cons.mpr ⟨.delayed, forall_mem_singleton.mpr .sorted⟩
    | delayed => exact forall_mem_singleton.mpr .items
    | items => exact forall_mem_singleton.mpr .one
    | sorted => exact forall_mem_cons.mpr ⟨.one, forall_mem_singleton.mpr .seven⟩
    | metadata => exact forall_mem_cons.mpr ⟨.one, forall_mem_singleton.mpr .nothing⟩
    | nothing | one | seven => exact forall_mem_nil _
  · intro v hv
    cases hv <;> rfl
  · intro v hv hsorted
    cases hv with
    | sorted => exact forall_mem_cons.mpr ⟨.intro (by simp) (by simp [Value.children]),
        forall_mem_singleton.mpr (.intro (by simp) (by simp [Value.children]))⟩
    | _ => cases hsorted
  · intro m hm
    cases hm
    exact ⟨pairwise_singleton _ _, forall_mem_singleton.mpr hone⟩
  · intro tag m hm
    cases hm
  · intro s hs
    cases hs
    exact ⟨hlawful.mono hkeys, hkeys⟩
  · intro inner m hm
    cases hm
    exact .metadata
  · intro t ht
    cases ht
  · intro t ht
    cases ht
    exact horders

end Clojurust.Clone
