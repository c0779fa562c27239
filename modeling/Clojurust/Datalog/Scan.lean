import Clojurust.Datalog.Refinement
import Clojurust.Lib.Matching

/-!
# Scanning an index

* `decodeEav_key`, `decodeAve_key`, `decodeVae_key` — decoding an index key; an entry without a
  name for its id stands for no datom, and decoding it is an error;
* `ScanSpec` — what a scan over the keys of some entries returns, `scanSpec_of_keys`;
* `encodeValueReadonly_spec`, `lookupKey_val_iff` — the lookup key of a value selects exactly
  its entries;
* `countPrefix_eq` — a difference of ranks counts the keys with a prefix.
-/

namespace Clojurust.Datalog

open SortedTable List

/-! ## Fallible maps -/

section MapOk

variable {α β ε : Type} {f : α → Except ε β}

theorem mapOk_cons_ok {x : α} {xs : List α} {y : β} {ys : List β} (hx : f x = .ok y)
    (hxs : mapOk f xs = .ok ys) : mapOk f (x :: xs) = .ok (y :: ys) := by simp only [mapOk, hx, hxs]

theorem mapOk_ok : ∀ {l : List α}, (∀ x ∈ l, ∃ y, f x = .ok y) →
    ∃ ys, mapOk f l = .ok ys ∧ List.Forall₂ (fun x y => f x = .ok y) l ys
  | [], _ => ⟨[], rfl, .nil⟩
  | x :: xs, h => by
    obtain ⟨y, hy⟩ := h x (.head _)
    obtain ⟨ys, hys, hall⟩ := mapOk_ok (fun x' hx' => h x' (.tail _ hx'))
    exact ⟨y :: ys, mapOk_cons_ok hy hys, .cons hy hall⟩

theorem mapOk_error : ∀ {l : List α} {x : α} {err : ε}, x ∈ l → f x = .error err →
    ∃ err', mapOk f l = .error err'
  | x :: xs, z, err, hz, hf => by
    cases hx : f x with
    | error err' => exact ⟨err', by simp only [mapOk, hx]⟩
    | ok y =>
      rcases mem_cons.mp hz with rfl | hz
      · grind
      · obtain ⟨err', herr⟩ := mapOk_error hz hf
        exact ⟨err', by simp only [mapOk, hx, herr]⟩

variable {R : α → β → Prop}

theorem forall₂_mem_iff (hfun : ∀ x y y', R x y → R x y' → y = y') :
    ∀ {l : List α} {ys : List β}, List.Forall₂ R l ys → ∀ y, y ∈ ys ↔ ∃ x ∈ l, R x y := by
  intro l ys h
  induction h with
  | nil => simp
  | @cons x y l ys hxy _ ih => grind

end MapOk

/-! ## Decoding keys -/

/-- The id of the entry has a name. -/
def Store.Named (s : Store) (x : Entry) : Prop := ∃ n, s.attrNames.get x.aid = some n

section Decode

variable {s : Store}

theorem getSlice_append_left {p q : Bytes} {n : Nat} (h : p.length = n) :
    getSlice (p ++ q) 0 n = some p := by simp [getSlice, ← h]

theorem getSlice_append_right {p q : Bytes} {i j n : Nat} (h : p.length = n) (hi : i = n + j) {m : Nat} :
    getSlice (p ++ q) i (n + m) = getSlice q j m := by
  subst h hi
  simp only [getSlice, length_append, Nat.add_le_add_iff_left, take_append, drop_append,
    Nat.add_sub_cancel_left]
  have : (p.take (p.length + m)) = p := take_of_length_le (by omega)
  rw [this, drop_of_length_le (by omega : p.length ≤ p.length + j)]
  simp

/-- What decoding an entry comes to, once its components are read. -/
def Store.nameDatom (s : Store) (x : Entry) (v : StoreValue) : Except StoreError Datom :=
  match s.attrName x.aid with
  | .error err => .error err
  | .ok a => .ok ⟨x.e, a, v⟩

variable {x : Entry} {r : Except StoreError StoreValue}

theorem decodeEav_key
    (h : ∀ rest, decodeValue s.db (x.val.enc ++ rest) = r.map fun v => (v, x.val.enc.length)) :
    s.decodeEav x.eavKey = r.bind (s.nameDatom x) := by
  have hdrop : x.eavKey.drop 12 = x.val.enc ++ [] := by
    simp [Entry.eavKey, eavKey, ← append_assoc, drop_left']
  have he : getSlice x.eavKey 0 8 = some (u64ToBeBytes x.e) := getSlice_append_left (by simp)
  have ha : getSlice x.eavKey 8 12 = some (u32ToBeBytes x.aid) := by
    have h1 := getSlice_append_right (p := u64ToBeBytes x.e) (q := u32ToBeBytes x.aid ++ x.val.enc)
      (i := 8) (j := 0) (n := 8) (m := 4) (by simp) rfl
    rw [getSlice_append_left (by simp)] at h1
    exact h1
  unfold Store.decodeEav
  simp only [he, ha, hdrop, h, u32FromBeBytes_toBeBytes, u64FromBeBytes_toBeBytes]
  cases r <;> rfl

theorem decodeAve_key
    (h : ∀ rest, decodeValue s.db (x.val.enc ++ rest) = r.map fun v => (v, x.val.enc.length)) :
    s.decodeAve x.aveKey = r.bind (s.nameDatom x) := by
  have hdrop : x.aveKey.drop 4 = x.val.enc ++ u64ToBeBytes x.e := by
    simp [Entry.aveKey, aveKey, drop_left']
  have ha : getSlice x.aveKey 0 4 = some (u32ToBeBytes x.aid) := getSlice_append_left (by simp)
  have he : getSlice x.aveKey (4 + x.val.enc.length) (4 + x.val.enc.length + 8) =
      some (u64ToBeBytes x.e) := by
    have h1 := getSlice_append_right (p := u32ToBeBytes x.aid) (q := x.val.enc ++ u64ToBeBytes x.e)
      (i := 4 + x.val.enc.length) (j := x.val.enc.length) (n := 4) (m := x.val.enc.length + 8)
      (by simp) rfl
    have h2 := getSlice_append_right (p := x.val.enc) (q := u64ToBeBytes x.e)
      (i := x.val.enc.length) (j := 0) (n := x.val.enc.length) (m := 8) rfl rfl
    have h3 : getSlice (u64ToBeBytes x.e) 0 8 = some (u64ToBeBytes x.e) := by
      have := getSlice_append_left (p := u64ToBeBytes x.e) (q := []) (n := 8) (by simp)
      simpa using this
    rw [h2, h3] at h1
    rw [Nat.add_assoc]
    exact h1
  unfold Store.decodeAve
  cases r with
  | error => simp only [ha, hdrop, h]; rfl
  | ok v =>
    simp only [ha, hdrop, h, Except.map, he, u32FromBeBytes_toBeBytes, u64FromBeBytes_toBeBytes]
    rfl

theorem decodeVaeAt_key (t e : UInt64) (aid : UInt32) :
    s.decodeVaeAt t (vaeKey t aid e) = s.nameDatom ⟨e, aid, .inline (.ref t)⟩ (.ref t) := by
  have ha : getSlice (vaeKey t aid e) 8 12 = some (u32ToBeBytes aid) := by
    have h1 := getSlice_append_right (p := u64ToBeBytes t) (q := u32ToBeBytes aid ++ u64ToBeBytes e)
      (i := 8) (j := 0) (n := 8) (m := 4) (by simp) rfl
    rw [getSlice_append_left (by simp)] at h1
    exact h1
  have he : getSlice (vaeKey t aid e) 12 20 = some (u64ToBeBytes e) := by
    have h1 := getSlice_append_right (p := u64ToBeBytes t ++ u32ToBeBytes aid)
      (q := u64ToBeBytes e ++ []) (i := 12) (j := 0) (n := 12) (m := 8) (by simp) rfl
    rw [getSlice_append_left (by simp)] at h1
    simpa [vaeKey, append_assoc] using h1
  unfold Store.decodeVaeAt
  simp only [ha, he, u32FromBeBytes_toBeBytes, u64FromBeBytes_toBeBytes]
  rfl

theorem decodeVae_key (t e : UInt64) (aid : UInt32) :
    s.decodeVae (vaeKey t aid e) = s.nameDatom ⟨e, aid, .inline (.ref t)⟩ (.ref t) := by
  have ht : getSlice (vaeKey t aid e) 0 8 = some (u64ToBeBytes t) := getSlice_append_left (by simp)
  unfold Store.decodeVae
  simp only [ht, u64FromBeBytes_toBeBytes, decodeVaeAt_key]

end Decode

/-! ## Scans -/

section Scans

variable {digest : Bytes → Digest} {R : Set Bytes} {s : Store}

variable {x : Entry} {v w : StoreValue}

theorem nameDatom_ok_iff {d : Datom} (h : KeyOf s.db v x.val) :
    s.nameDatom x v = .ok d ↔ s.DatomOf x d := by
  unfold Store.nameDatom Store.attrName Store.DatomOf
  cases hn : s.attrNames.get x.aid with
  | none => simp
  | some a =>
    simp only [Except.ok.injEq, Option.some.injEq]
    constructor
    · grind
    · rintro ⟨he, ha, hk⟩
      cases d
      cases he
      cases ha
      rw [keyOf_value_unique h hk]

theorem nameDatom_error (h : ¬ s.Named x) :
    s.nameDatom x v = .error (.codec "unknown aid in index") := by
  unfold Store.nameDatom Store.attrName
  cases hn : s.attrNames.get x.aid with
  | none => rfl
  | some a => exact absurd ⟨a, hn⟩ h

theorem scanKeys_eq (low : Option Bytes) (pfx : Bytes) (t : Table Bytes Bytes)
    (hlow : low = some pfx ∨ (low = none ∧ pfx = [])) :
    scanKeys low pfx t = t.keys.filter (fun k => pfx.isPrefixOf k) := by
  unfold scanKeys Table.keys
  rw [filter_map]
  congr 1
  rcases hlow with rfl | ⟨rfl, rfl⟩
  · exact prefixScan_eq_filter t.sorted pfx
  · rw [(while_eq_filter (pairwise_of_forall (by simp))).1]
    rfl

theorem keys_nodup (t : Table Bytes Bytes) : t.keys.Nodup := by
  refine t.keys_sorted.imp ?_
  grind

/-- The number of keys with a prefix. -/
def prefixCount (t : Table Bytes Bytes) (pfx : Bytes) : Nat :=
  (t.keys.filter (fun k => pfx.isPrefixOf k)).length

/-- The result `r` of scanning `n` keys, those of the entries that satisfy `P`. -/
structure ScanSpec (s : Store) (P : Entry → Prop) (n : Nat) (r : Except StoreError (List Datom)) :
    Prop where
  ok : (∀ x, s.db.Has x → P x → s.Named x) → ∃ ds, r = .ok ds ∧ ds.Nodup ∧ ds.length = n ∧
    ∀ d, d ∈ ds ↔ ∃ x, s.db.Has x ∧ P x ∧ s.DatomOf x d
  error : (∃ x, s.db.Has x ∧ P x ∧ ¬ s.Named x) → ∃ err, r = .error err

variable (hinv : StoreInv digest R s)

include hinv

/-- **A scan returns the datoms of its entries, each once**, or fails at an id without a name. -/
theorem scanSpec_of_keys {P : Entry → Prop} (key : Entry → Bytes)
    {keys : List Bytes} {decodeKey : Bytes → Except StoreError Datom}
    (hkeys : ∀ k, k ∈ keys ↔ ∃ x, s.db.Has x ∧ P x ∧ k = key x) (hnodup : keys.Nodup)
    (hdecode : ∀ x v, P x → KeyOf s.db v x.val → decodeKey (key x) = s.nameDatom x v) :
    ScanSpec s P keys.length (mapOk decodeKey keys) := by
  have hok : ∀ x, s.db.Has x → P x → ∀ d, decodeKey (key x) = .ok d ↔ s.DatomOf x d := by
    intro x hx hP d
    obtain ⟨v, hv⟩ := hinv.content x hx
    rw [hdecode x v hP hv, nameDatom_ok_iff hv]
  refine ⟨?_, ?_⟩
  · intro hnamed
    obtain ⟨ds, hds, hall⟩ := mapOk_ok (f := decodeKey) (l := keys) (by
      intro k hk
      obtain ⟨x, hx, hP, rfl⟩ := (hkeys k).mp hk
      obtain ⟨v, hv⟩ := hinv.content x hx
      obtain ⟨n, hn⟩ := hnamed x hx hP
      exact ⟨⟨x.e, n, v⟩, (hok x hx hP _).mpr ⟨rfl, hn, hv⟩⟩)
    refine ⟨ds, hds, ?_, hall.length_eq.symm, ?_⟩
    · refine Matching.pairwise_of_forall₂ hall hnodup ?_
      rintro k hk k' hk' d _ hd hd' hne rfl
      obtain ⟨x, hx, hP, rfl⟩ := (hkeys k).mp hk
      obtain ⟨y, hy, hP', rfl⟩ := (hkeys k').mp hk'
      exact hne (by rw [datomOf_inj hinv ((hok x hx hP d).mp hd) ((hok y hy hP' d).mp hd')])
    · intro d
      rw [forall₂_mem_iff (fun k d d' h h' => by rw [h] at h'; exact Except.ok.inj h') hall]
      grind
  · rintro ⟨x, hx, hP, hnot⟩
    obtain ⟨v, hv⟩ := hinv.content x hx
    exact mapOk_error ((hkeys (key x)).mpr ⟨x, hx, hP, rfl⟩)
      ((hdecode x v hP hv).trans (nameDatom_error hnot))

theorem scanEav_spec (pfx : Bytes) :
    ScanSpec s (fun x => pfx <+: x.eavKey) (prefixCount (s.db .eav) pfx) (s.scanEav pfx) := by
  unfold Store.scanEav prefixCount
  simp only
  rw [scanKeys_eq _ _ _ (by cases pfx <;> simp)]
  refine scanSpec_of_keys hinv Entry.eavKey ?_ ((keys_nodup _).filter _) ?_
  · intro k
    simp only [mem_filter, isPrefixOf_iff_prefix]
    constructor
    · rintro ⟨hk, hp⟩
      obtain ⟨x, rfl⟩ := hinv.index.eav k hk
      exact ⟨x, hk, hp, rfl⟩
    · rintro ⟨x, hx, hp, rfl⟩
      exact ⟨hx, hp⟩
  · intro x v _ hv
    exact decodeEav_key (r := .ok v) (decodeValue_enc hv)

theorem scanAve_spec (pfx : Bytes) :
    ScanSpec s (fun x => pfx <+: x.aveKey) (prefixCount (s.db .ave) pfx) (s.scanAve pfx) := by
  unfold Store.scanAve prefixCount
  rw [scanKeys_eq _ _ _ (.inl rfl)]
  refine scanSpec_of_keys hinv Entry.aveKey ?_ ((keys_nodup _).filter _) ?_
  · grind
  · intro x v _ hv
    exact decodeAve_key (r := .ok v) (decodeValue_enc hv)

theorem scanVae_spec (t : UInt64) :
    ScanSpec s (fun x => x.val = .inline (.ref t)) (prefixCount (s.db .vae) (u64ToBeBytes t))
      (s.scanVae t) := by
  unfold Store.scanVae prefixCount
  simp only
  rw [scanKeys_eq _ _ _ (.inl rfl)]
  refine scanSpec_of_keys hinv (fun x => vaeKey t x.aid x.e) ?_ ((keys_nodup _).filter _) ?_
  · intro k
    simp only [mem_filter, isPrefixOf_iff_prefix, hinv.index.vae]
    constructor
    · rintro ⟨⟨t', aid, e, hx, rfl⟩, hp⟩
      obtain rfl := prefix_vaeKey_iff.mp hp
      exact ⟨_, hx, rfl, rfl⟩
    · rintro ⟨x, hx, hval, rfl⟩
      refine ⟨⟨t, x.aid, x.e, ?_, rfl⟩, prefix_vaeKey_iff.mpr rfl⟩
      rw [← hval]
      exact hx
  · intro x v hval hv
    rw [decodeVaeAt_key]
    obtain ⟨e, aid, val⟩ := x
    cases hval
    obtain ⟨rfl, -⟩ := hv
    rfl

omit hinv

/-! ## Lookup keys -/

/-- The key form under which a value is looked up.  A giant that was never stored gets the
id 0. -/
def LookupKey (db : Db) (w : StoreValue) (kv : KeyVal) : Prop :=
  KeyOf db w kv ∨ ((∀ kv', ¬ KeyOf db w kv') ∧ ∃ (kind : GiantKind) (raw : Bytes) (head : GiantHead),
    giantParts w = some (kind.tag, raw) ∧ head.val = raw.take GIANT_PREFIX ∧ kv = .giant kind head 0)

/-- **The lookup key of a value selects exactly its entries**: no entry has the id 0. -/
theorem lookupKey_val_iff (hinv : StoreInv digest R s) {kv : KeyVal}
    (h : LookupKey s.db w kv) (hx : s.db.Has x) :
    x.val = kv ↔ KeyOf s.db w x.val := by
  rcases h with hkv | ⟨hnone, kind, raw, head, -, -, rfl⟩
  · constructor
    · grind
    · intro hval
      exact keyOf_key_unique hinv.giants hval hkv
  · refine iff_of_false ?_ (hnone x.val)
    intro hval
    obtain ⟨v, hv⟩ := hinv.content x hx
    rw [hval] at hv
    obtain ⟨-, _, _, -, -, hgiant⟩ := hv
    obtain ⟨id, _, _, hk, -, hpos, -⟩ := hinv.giants.stored _ _ hgiant
    rw [← u64ToBeBytes_inj.mp hk] at hpos
    exact absurd hpos (by decide)

theorem encodeValueReadonly_spec (hinj : Set.InjOn digest R) (hinv : StoreInv digest R s)
    (hw : Storable w) (hR : ∀ raw, hashedBytes w = some raw → raw ∈ R) :
    ∃ kv : KeyVal, encodeValueReadonly digest s.db w = .ok kv.enc ∧ LookupKey s.db w kv := by
  unfold encodeValueReadonly
  by_cases hshort : (encodeInline w).length ≤ GIANT_THRESHOLD
  · rw [if_pos hshort]
    exact ⟨.inline w, rfl, .inl ⟨rfl, hshort⟩⟩
  · rw [if_neg hshort]
    obtain ⟨⟨giantTag, raw⟩, hparts⟩ := Option.isSome_iff_exists.mp (hw.resolve_left hshort)
    have hraw : raw ∈ R := hR raw (by simp [hashedBytes, hshort, hparts])
    obtain ⟨kind, rfl⟩ := giantParts_kind hparts
    have hlen := giantParts_length hparts (by omega)
    simp only [hparts]
    cases hget : (s.db .giantIds).get (digest raw).1 with
    | some =>
      obtain ⟨tag, raw', hd, hgiant⟩ := hinv.giants.ids _ _ hget
      obtain ⟨id, _, _, rfl, hb, -, -, -, hR'⟩ := hinv.giants.stored _ _ hgiant
      cases hb
      obtain rfl : raw = raw' := hinj hraw hR' (Subtype.ext hd)
      simp only [u64ToBeBytes_length, if_true, u64FromBeBytes_toBeBytes]
      exact ⟨.giant kind ⟨raw.take GIANT_PREFIX, hlen⟩ id, rfl,
        .inl ⟨by omega, raw, tag, hparts, rfl, hgiant⟩⟩
    | none =>
      refine ⟨.giant kind ⟨raw.take GIANT_PREFIX, hlen⟩ 0, rfl,
        .inr ⟨fun kv => ?_, kind, raw, _, hparts, rfl, rfl⟩⟩
      cases kv with
      | inline u => exact fun h => hshort h.2
      | giant =>
        rintro ⟨-, raw', tag', hparts', -, hgiant⟩
        have hg := hinv.giants
        grind

theorem encodeValueReadonly_error {db : Db} (hw : ¬ Storable w) :
    encodeValueReadonly digest db w = .error (.codec "only strings and bytes can be giant") := by
  obtain ⟨hlong, hnone⟩ := not_storable hw
  unfold encodeValueReadonly
  rw [if_neg hlong, hnone]

/-! ## Counting keys -/

theorem countBelow_eq (t : Table Bytes Bytes) (k : Bytes) :
    countBelow t k = t.keys.countP (fun x => compare x k == .lt) := by
  unfold countBelow Table.keys
  rw [(while_eq_filter (pairwise_below t.sorted k)).1, countP_map, countP_eq_length_filter]
  rfl

theorem countP_sub {p q : Bytes → Bool} (h : ∀ k, p k = true → q k = true) (keys : List Bytes) :
    keys.countP q - keys.countP p = keys.countP (fun k => q k && !p k) := by
  have hadd : keys.countP q = keys.countP p + keys.countP (fun k => q k && !p k) := by
    induction keys with
    | nil => rfl
    | cons => grind
  omega

/-- **A prefix count is the number of keys that have the prefix.** -/
theorem countPrefix_eq (t : Table Bytes Bytes) (pfx : Bytes) : countPrefix t pfx = prefixCount t pfx := by
  have hbelow : ∀ k, (compare k pfx == .lt) = true → UpTo pfx k := by
    intro k hk
    exact .inl (by simpa using hk)
  have hbetween : ∀ {q : Bytes → Bool}, (∀ k, q k = true ↔ UpTo pfx k) →
      t.keys.countP (fun k => q k && !(compare k pfx == .lt)) = prefixCount t pfx := by
    intro q hq
    unfold prefixCount
    rw [countP_eq_length_filter]
    congr 1
    refine filter_congr ?_
    intro k _
    rw [Bool.eq_iff_iff, Bool.and_eq_true, hq, isPrefixOf_iff_prefix]
    unfold UpTo
    have := compare_of_prefix (p := pfx) (k := k)
    simp only [Bool.not_eq_eq_eq_not, Bool.not_true, beq_eq_false_iff_ne]
    tauto
  have hspec := prefixSuccessor_spec pfx
  unfold countPrefix
  cases hs : prefixSuccessor pfx with
  | some succ =>
    simp only [hs] at hspec
    simp only [countBelow_eq]
    have hq : ∀ k, (compare k succ == .lt) = true ↔ UpTo pfx k := by
      intro k
      rw [beq_iff_eq, hspec k]
    rw [countP_sub (fun k hk => (hq k).mpr (hbelow k hk)), hbetween hq]
  | none =>
    simp only [hs] at hspec
    have hall : countAll t = t.keys.countP (fun _ => true) := by simp [countAll, Table.keys]
    simp only [hall, countBelow_eq]
    rw [countP_sub (fun _ _ => rfl), hbetween (fun k => by simp [hspec k])]

end Scans

end Clojurust.Datalog
