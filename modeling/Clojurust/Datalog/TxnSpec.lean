import Clojurust.Datalog.Keys

/-!
# Specifications of the transaction primitives

One `wp` specification per LMDB call and per small helper, with the caches' frame condition:
nothing but the last step of `intern_attr` touches the attribute caches.
-/

namespace Clojurust.Datalog

open SortedTable StateExcept

/-! ## Tables -/

@[simp] theorem Db.set_self (db : Db) (d : Dbi) (t : Table Bytes Bytes) : db.set d t d = t := by
  simp [Db.set]

theorem Db.set_of_ne (db : Db) {d d' : Dbi} (t : Table Bytes Bytes) (h : d' ≠ d) :
    db.set d t d' = db d' := by simp [Db.set, h]

/-- The transaction still sees the attribute caches it started with. -/
def SameCaches (t t' : Txn) : Prop := t'.attrs = t.attrs ∧ t'.attrNames = t.attrNames

theorem SameCaches.refl (t : Txn) : SameCaches t t := ⟨rfl, rfl⟩

variable {t : Txn} {name : String}

theorem SameCaches.trans {u v : Txn} (h : SameCaches t u) (h' : SameCaches u v) :
    SameCaches t v := ⟨h'.1.trans h.1, h'.2.trans h.2⟩

/-! ## LMDB calls -/

/-- Any result, with the tables and the caches untouched. -/
def Untouched (t t' : Txn) : Prop := t'.db = t.db ∧ SameCaches t t'

theorem Untouched.refl (t : Txn) : Untouched t t := ⟨rfl, SameCaches.refl t⟩

theorem wp_lmdbCall (t : Txn) :
    wp lmdbCall (fun _ t' => Untouched t t') (fun _ t' => Untouched t t') t := by
  unfold lmdbCall
  rw [wp_bind, wp_get]
  split
  · exact Untouched.refl t
  · exact ⟨rfl, rfl, rfl⟩

theorem wp_txnGet (dbi : Dbi) (key : Bytes) (t : Txn) :
    wp (txnGet dbi key) (fun r t' => r = (t.db dbi).get key ∧ Untouched t t')
      (fun _ t' => Untouched t t') t := by
  refine wp_seq (wp_lmdbCall t) ?_
  intro _ t' h
  exact ⟨by rw [h.1], h⟩

/-- What a successful `put` requires and does. -/
@[grind cases]
structure PutSpec (dbi : Dbi) (key value : Bytes) (t t' : Txn) : Prop where
  db : t'.db = t.db.set dbi ((t.db dbi).put key value)
  caches : SameCaches t t'
  keyPos : 0 < key.length
  keyMax : key.length ≤ MDB_MAXKEYSIZE
  room : (t.db dbi).size < MAP_SIZE

theorem wp_txnPut (dbi : Dbi) (key value : Bytes) (t : Txn) :
    wp (txnPut dbi key value) (fun _ t' => PutSpec dbi key value t t')
      (fun _ t' => SameCaches t t') t := by
  refine wp_seq_weaken (wp_lmdbCall t) ?_ (fun _ _ h => h.2)
  intro _ t' h
  rw [wp_bind, wp_get]
  split
  · exact h.2
  · split
    · exact h.2
    · refine ⟨by rw [h.1], h.2, by omega, by omega, ?_⟩
      rw [← h.1]
      omega

theorem wp_txnDel (dbi : Dbi) (key : Bytes) (t : Txn) : wp (txnDel dbi key)
      (fun _ t' => t'.db = t.db.set dbi ((t.db dbi).del key) ∧ SameCaches t t')
      (fun _ t' => SameCaches t t') t := by
  refine wp_seq_weaken (wp_lmdbCall t) ?_ (fun _ _ h => h.2)
  intro _ t' h
  exact ⟨by rw [h.1], h.2⟩

/-! ## Counters -/

/-- The value of a counter. -/
def counter (db : Db) (key : Bytes) : UInt64 :=
  match (db .metaDb).get key with
  | some b => u64FromBeBytes b
  | none => 0

/-- What a successful `bump_counter` returns and does. -/
@[grind cases]
structure BumpSpec (key : Bytes) (t : Txn) (n : UInt64) (t' : Txn) : Prop where
  value : n = counter t.db key + 1
  db : t'.db = t.db.set .metaDb ((t.db .metaDb).put key (u64ToBeBytes n))
  caches : SameCaches t t'

theorem wp_bumpCounter (key : Bytes) (t : Txn) :
    wp (bumpCounter key) (fun n t' => BumpSpec key t n t') (fun _ t' => SameCaches t t') t := by
  refine wp_seq_weaken (wp_txnGet .metaDb key t) ?_ (fun _ _ h => h.2)
  rintro r t1 ⟨rfl, h1⟩
  have hread : wp (readCounter ((t.db .metaDb).get key))
      (fun n t' => n = counter t.db key ∧ t' = t1) (fun _ t' => t' = t1) t1 := by
    unfold counter
    cases (t.db .metaDb).get key with
    | none => exact ⟨rfl, rfl⟩
    | some b =>
      simp only [readCounter]
      split
      · exact ⟨rfl, rfl⟩
      · rfl
  refine wp_seq_weaken hread ?_ (fun _ t' h => by rw [h]; exact h1.2)
  rintro n t2 ⟨rfl, rfl⟩
  refine wp_seq_weaken (wp_txnPut _ _ _ t2) ?_ (fun _ _ h => h1.2.trans h)
  intro _ t3 h3
  exact ⟨rfl, by rw [h3.db, h1.1], h1.2.trans h3.caches⟩

/-! ## Interning -/

/-- What writing an attribute does: its schema record and both caches. -/
@[grind cases]
structure StoreAttrSpec (name : String) (aid : UInt32) (props : AttrProps) (t t' : Txn) : Prop where
  db : t'.db = t.db.set .schema ((t.db .schema).put (asBytes name) (schemaRecord aid props))
  attrs : t'.attrs = t.attrs.put name (aid, props)
  attrNames : t'.attrNames = t.attrNames.put aid name
  keyPos : 0 < (asBytes name).length
  keyMax : (asBytes name).length ≤ MDB_MAXKEYSIZE
  room : (t.db .schema).size < MAP_SIZE

theorem wp_storeAttr (name : String) (aid : UInt32) (props : AttrProps) (t : Txn) :
    wp (storeAttr name aid props) (fun r t' => r = (aid, props) ∧ StoreAttrSpec name aid props t t')
      (fun _ t' => SameCaches t t') t := by
  refine wp_seq (wp_txnPut _ _ _ t) ?_
  intro _ t' h
  exact ⟨rfl, h.db, by rw [h.caches.1], by rw [h.caches.2], h.keyPos, h.keyMax, h.room⟩

theorem wp_internAttr_known {r : UInt32 × AttrProps}
    (h : t.attrs.get name = some r) {Q : UInt32 × AttrProps → Txn → Prop}
    {E : StoreError → Txn → Prop} (hQ : Q r t) : wp (internAttr name none) Q E t := by
  unfold internAttr
  rw [wp_bind, wp_get]
  simp only [h]
  exact hQ

theorem wp_internAttr_update {aid : UInt32} {p props : AttrProps}
    (h : t.attrs.get name = some (aid, p)) :
    wp (internAttr name (some props))
      (fun r t' => r = (aid, props) ∧ StoreAttrSpec name aid props t t')
      (fun _ t' => SameCaches t t') t := by
  unfold internAttr
  rw [wp_bind, wp_get]
  simp only [h]
  exact wp_storeAttr name aid props t

/-- A name that is not known gets the next id. -/
theorem wp_internAttr_fresh {props : Option AttrProps} (h : t.attrs.get name = none) :
    wp (internAttr name props)
      (fun r t' => ∃ n t1, BumpSpec META_NEXT_AID t n t1 ∧ r = (n.toUInt32, props.getD {}) ∧
        StoreAttrSpec name n.toUInt32 (props.getD {}) t1 t')
      (fun _ t' => SameCaches t t') t := by
  unfold internAttr
  rw [wp_bind, wp_get]
  simp only [h]
  refine wp_seq (wp_bumpCounter _ t) ?_
  intro n t1 h1
  refine wp_weaken (wp_storeAttr name n.toUInt32 _ t1) ?_ (fun _ _ h => h1.caches.trans h)
  grind

/-! ## The frame of the remaining functions -/

section Frame

theorem Keeps.caches_bind {α β : Type} {x : Tx α} {f : α → Tx β} (hx : Keeps SameCaches x)
    (hf : ∀ a, Keeps SameCaches (f a)) : Keeps SameCaches (x >>= f) :=
  Keeps.bind SameCaches.trans hx hf

theorem keeps_lmdbCall : Keeps SameCaches lmdbCall :=
  fun t => wp_weaken (wp_lmdbCall t) (fun _ _ h => h.2) (fun _ _ h => h.2)

theorem keeps_txnGet (dbi : Dbi) (key : Bytes) : Keeps SameCaches (txnGet dbi key) :=
  fun t => wp_weaken (wp_txnGet dbi key t) (fun _ _ h => h.2.2) (fun _ _ h => h.2)

theorem keeps_txnPut (dbi : Dbi) (key value : Bytes) : Keeps SameCaches (txnPut dbi key value) :=
  fun t => wp_mono (wp_txnPut dbi key value t) fun _ _ h => h.caches

theorem keeps_txnDel (dbi : Dbi) (key : Bytes) : Keeps SameCaches (txnDel dbi key) :=
  fun t => wp_mono (wp_txnDel dbi key t) fun _ _ h => h.2

theorem keeps_bumpCounter (key : Bytes) : Keeps SameCaches (bumpCounter key) :=
  fun t => wp_mono (wp_bumpCounter key t) fun _ _ h => h.caches

theorem keeps_giantId (digest : Bytes → Digest) (giantTag : UInt8) (raw : Bytes) :
    Keeps SameCaches (giantId digest giantTag raw) := by
  refine Keeps.caches_bind (keeps_txnGet _ _) ?_
  intro r
  split
  · split
    · exact keeps_pure SameCaches.refl _
    · exact keeps_throw SameCaches.refl _
  · refine Keeps.caches_bind (keeps_bumpCounter _) ?_
    intro id
    refine Keeps.caches_bind (keeps_txnPut _ _ _) fun _ => ?_
    exact Keeps.caches_bind (keeps_txnPut _ _ _) fun _ => keeps_pure SameCaches.refl _

theorem keeps_encodeValueForKey (digest : Bytes → Digest) (v : StoreValue) :
    Keeps SameCaches (encodeValueForKey digest v) := by
  unfold encodeValueForKey
  split
  · exact keeps_pure SameCaches.refl _
  · split
    · exact keeps_throw SameCaches.refl _
    · exact Keeps.caches_bind (keeps_giantId _ _ _) fun _ => keeps_pure SameCaches.refl _

theorem keeps_entityAttrValues (e : UInt64) (aid : UInt32) :
    Keeps SameCaches (entityAttrValues e aid) := by
  refine Keeps.caches_bind keeps_lmdbCall fun _ => ?_
  exact Keeps.caches_bind (keeps_get SameCaches.refl) fun _ => keeps_pure SameCaches.refl _

theorem keeps_insertDatom (e : UInt64) (aid : UInt32) (venc : Bytes) (v : StoreValue) :
    Keeps SameCaches (insertDatom e aid venc v) := by
  refine Keeps.caches_bind (keeps_txnPut _ _ _) fun _ => ?_
  refine Keeps.caches_bind (keeps_txnPut _ _ _) fun _ => ?_
  split
  · exact keeps_txnPut _ _ _
  · exact keeps_pure SameCaches.refl _

theorem keeps_deleteDatom (e : UInt64) (aid : UInt32) (venc : Bytes) :
    Keeps SameCaches (deleteDatom e aid venc) := by
  refine Keeps.caches_bind (keeps_txnDel _ _) fun _ => ?_
  refine Keeps.caches_bind (keeps_txnDel _ _) fun _ => ?_
  split
  · exact keeps_txnDel _ _
  · exact keeps_pure SameCaches.refl _

theorem keeps_deleteDatomEncoded (e : UInt64) (aid : UInt32) (venc : Bytes) (v : StoreValue) :
    Keeps SameCaches (deleteDatomEncoded e aid venc v) := by
  refine Keeps.caches_bind (keeps_txnDel _ _) fun _ => ?_
  refine Keeps.caches_bind (keeps_txnDel _ _) fun _ => ?_
  split
  · exact keeps_txnDel _ _
  · exact keeps_pure SameCaches.refl _

theorem keeps_deleteDatoms (e : UInt64) (aid : UInt32) : ∀ vencs : List Bytes,
    Keeps SameCaches (deleteDatoms e aid vencs)
  | [] => keeps_pure SameCaches.refl _
  | venc :: vencs =>
    Keeps.caches_bind (keeps_deleteDatom e aid venc) fun _ => keeps_deleteDatoms e aid vencs

theorem keeps_replaceExisting (e : UInt64) (aid : UInt32) (props : AttrProps) :
    Keeps SameCaches (replaceExisting e aid props) := by
  unfold replaceExisting
  split
  · exact keeps_pure SameCaches.refl _
  · exact Keeps.caches_bind (keeps_entityAttrValues e aid) fun _ => keeps_deleteDatoms e aid _

end Frame

end Clojurust.Datalog
