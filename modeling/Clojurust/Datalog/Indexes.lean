import Clojurust.Datalog.TxnSpec

/-!
# The three indexes

* `Db.Has` — the entries of a database, read off the `eav` index;
* `IndexInv` — every `eav` key is the key of an entry, `ave` holds the same entries and `vae`
  exactly those whose value is a reference;
* `indexInv_inserted`, `indexInv_removed` — kept by inserting and removing an entry;
* `wp_insertDatom`, `wp_deleteDatomEncoded`, `wp_replaceExisting` — what the transaction's
  index operations do to the entries.
-/

namespace Clojurust.Datalog

open SortedTable StateExcept List

/-- The entry is asserted. -/
def Db.Has (db : Db) (x : Entry) : Prop := x.eavKey ∈ (db .eav).keys

/-- The indexes agree. -/
@[grind cases]
structure IndexInv (db : Db) : Prop where
  eav : ∀ k ∈ (db .eav).keys, ∃ x : Entry, k = x.eavKey
  ave : ∀ k, k ∈ (db .ave).keys ↔ ∃ x : Entry, db.Has x ∧ k = x.aveKey
  vae : ∀ k, k ∈ (db .vae).keys ↔
    ∃ (t : UInt64) (aid : UInt32) (e : UInt64),
      db.Has ⟨e, aid, .inline (.ref t)⟩ ∧ k = vaeKey t aid e

theorem IndexInv.congr {db db' : Db} {changed : List Dbi} (h : IndexInv db)
    (hdb : ∀ d ∉ changed, db' d = db d) (hchanged : ∀ d ∈ [Dbi.eav, .ave, .vae], d ∉ changed) :
    IndexInv db' := by
  simp only [forall_mem_cons] at hchanged
  have he := hdb _ hchanged.1
  have hhas : ∀ x, db'.Has x ↔ db.Has x := by intro x; unfold Db.Has; rw [he]
  refine ⟨?_, ?_, ?_⟩
  all_goals grind

/-! ## References -/

/-- The entity a value refers to. -/
def StoreValue.target : StoreValue → Option UInt64
  | .ref t => some t
  | _ => none

/-- The entity a keyed value refers to. -/
def KeyVal.target : KeyVal → Option UInt64
  | .inline v => v.target
  | .giant _ _ _ => none

theorem KeyVal.target_eq_some {kv : KeyVal} {t : UInt64} :
    kv.target = some t ↔ kv = .inline (.ref t) := by
  cases kv with
  | giant => simp [KeyVal.target]
  | inline v => cases v <;> simp [KeyVal.target, StoreValue.target]

theorem refTarget_enc (kv : KeyVal) : refTarget kv.enc = kv.target := by
  unfold refTarget
  cases kv with
  | giant kind =>
    have : kind.tag ≠ TAG_REF := by cases kind <;> decide
    simp [KeyVal.enc, KeyVal.target, this]
  | inline v =>
    obtain ⟨bs, hbs⟩ := encodeInline_eq_tag_cons v
    have hdec : decode (encodeInline v) = .ok (.value v, (encodeInline v).length) := by
      have := decode_encodeInline_append v []
      simpa using this
    have hhead : (encodeInline v).head? = some v.tag := by rw [hbs]; rfl
    simp only [KeyVal.enc, KeyVal.target, hhead, hdec]
    cases v <;> rfl

/-! ## Inserting and removing entries -/

/-- The database with the keys of an entry edited in its indexes. -/
def Db.edited (edit : Table Bytes Bytes → Bytes → Table Bytes Bytes) (db : Db) (x : Entry) : Db
  | .eav => edit (db .eav) x.eavKey
  | .ave => edit (db .ave) x.aveKey
  | .vae =>
    match x.val.target with
    | some t => edit (db .vae) (vaeKey t x.aid x.e)
    | none => db .vae
  | d => db d

/-- The database with an entry added to its indexes. -/
abbrev Db.inserted : Db → Entry → Db := Db.edited fun t k => t.put k []

/-- The database with an entry removed from its indexes. -/
abbrev Db.removed : Db → Entry → Db := Db.edited fun t k => t.del k

section Entries

variable {db : Db} {x y : Entry}

theorem has_inserted : (db.inserted x).Has y ↔ y = x ∨ db.Has y := by
  unfold Db.Has
  rw [show (db.inserted x) .eav = (db .eav).put x.eavKey [] from rfl, Table.mem_keys_put,
    Entry.eavKey_inj]

theorem has_removed : (db.removed x).Has y ↔ y ≠ x ∧ db.Has y := by
  unfold Db.Has
  rw [show (db.removed x) .eav = (db .eav).del x.eavKey from rfl, Table.mem_keys_del, Ne,
    Entry.eavKey_inj]

theorem entry_eq_ref_iff {t : UInt64} {aid : UInt32} {e : UInt64} :
    (⟨e, aid, .inline (.ref t)⟩ : Entry) = x ↔ e = x.e ∧ aid = x.aid ∧ x.val.target = some t := by
  rw [Entry.ext_iff, KeyVal.target_eq_some]
  simp only [eq_comm]

theorem indexInv_inserted (h : IndexInv db) (x : Entry) : IndexInv (db.inserted x) where
  eav := by
    intro k hk
    rw [show (db.inserted x) .eav = (db .eav).put x.eavKey [] from rfl, Table.mem_keys_put] at hk
    grind
  ave := by
    intro k
    rw [show (db.inserted x) .ave = (db .ave).put x.aveKey [] from rfl, Table.mem_keys_put, h.ave]
    simp only [has_inserted]
    simp
  vae := by
    intro k
    simp only [has_inserted, entry_eq_ref_iff]
    cases ht : x.val.target with
    | none =>
      rw [show (db.inserted x) .vae = db .vae by simp [Db.edited, ht], h.vae]
      simp
    | some t =>
      rw [show (db.inserted x) .vae = (db .vae).put (vaeKey t x.aid x.e) [] by
        simp [Db.edited, ht], Table.mem_keys_put, h.vae]
      grind

theorem indexInv_removed (h : IndexInv db) (x : Entry) : IndexInv (db.removed x) where
  eav := by
    intro k hk
    rw [show (db.removed x) .eav = (db .eav).del x.eavKey from rfl, Table.mem_keys_del] at hk
    exact h.eav k hk.2
  ave := by
    intro k
    rw [show (db.removed x) .ave = (db .ave).del x.aveKey from rfl, Table.mem_keys_del, h.ave]
    simp only [has_removed]
    constructor
    · grind
    · rintro ⟨y, ⟨hne, hy⟩, rfl⟩
      exact ⟨fun he => hne (Entry.aveKey_inj.mp he), y, hy, rfl⟩
  vae := by
    intro k
    simp only [has_removed, Ne, entry_eq_ref_iff]
    cases ht : x.val.target with
    | none =>
      rw [show (db.removed x) .vae = db .vae by simp [Db.edited, ht], h.vae]
      simp
    | some t =>
      rw [show (db.removed x) .vae = (db .vae).del (vaeKey t x.aid x.e) by
        simp [Db.edited, ht], Table.mem_keys_del, h.vae]
      constructor
      · grind
      · rintro ⟨t', aid, e, ⟨hne, hy⟩, rfl⟩
        refine ⟨?_, t', aid, e, hy, rfl⟩
        intro he
        obtain ⟨rfl, rfl, rfl⟩ := vaeKey_inj.mp he
        exact hne ⟨rfl, rfl, rfl⟩

end Entries

/-! ## Transactions -/

/-- Only the indexes change. -/
@[grind cases]
structure IndexFrame (t t' : Txn) : Prop where
  caches : SameCaches t t'
  tables : ∀ d ∉ [Dbi.eav, .ave, .vae], t'.db d = t.db d

theorem IndexFrame.refl (t : Txn) : IndexFrame t t := ⟨SameCaches.refl t, fun _ _ => rfl⟩

variable {t : Txn} {v : StoreValue}

theorem IndexFrame.trans {u v : Txn} (h : IndexFrame t u) (h' : IndexFrame u v) : IndexFrame t v :=
  ⟨h.caches.trans h'.caches, fun d hd => (h'.tables d hd).trans (h.tables d hd)⟩

attribute [local simp] Entry.eavKey

section Edit

variable {edit : Table Bytes Bytes → Bytes → Table Bytes Bytes}

theorem IndexFrame.of_edited {t' : Txn} {x : Entry} (hc : SameCaches t t')
    (h : t'.db = t.db.edited edit x) : IndexFrame t t' := by
  refine ⟨hc, fun d hd => ?_⟩
  rw [h]
  cases d <;> first | rfl | simp at hd

theorem wp_editIndexes (op : Dbi → Bytes → Tx Unit) (hop : ∀ d k t, wp (op d k)
      (fun _ t' => t'.db = t.db.set d (edit (t.db d) k) ∧ SameCaches t t') (fun _ _ => True) t)
    (x : Entry) (tail : Tx Unit) (htail : tail = match x.val.target with
      | some target => op .vae (vaeKey target x.aid x.e)
      | none => return ()) (t : Txn) :
    wp (do op .eav x.eavKey; op .ave x.aveKey; tail)
      (fun _ t' => t'.db = t.db.edited edit x ∧ SameCaches t t') (fun _ _ => True) t := by
  refine wp_seq_any (hop _ _ t) ?_
  intro _ t1 h1
  refine wp_seq_any (hop _ _ t1) ?_
  intro _ t2 h2
  have h12 := h1.2.trans h2.2
  subst htail
  split
  · rename_i target ht
    refine wp_mono_any (hop _ _ t2) ?_
    intro _ t3 h3
    refine ⟨?_, h12.trans h3.2⟩
    funext d
    rw [h3.1, h2.1, h1.1]
    cases d <;> simp [Db.set, Db.edited, ht]
  · rename_i ht
    refine ⟨?_, h12⟩
    funext d
    rw [h2.1, h1.1]
    cases d <;> simp [Db.set, Db.edited, ht]

end Edit

theorem wp_insertDatom (x : Entry) (hv : x.val.target = v.target) (t : Txn) :
    wp (insertDatom x.e x.aid x.val.enc v)
      (fun _ t' => t'.db = t.db.inserted x ∧ SameCaches t t') (fun _ _ => True) t := by
  refine wp_editIndexes (fun d k => txnPut d k []) (fun d k t =>
    wp_mono_any (wp_txnPut d k [] t) fun _ _ h => ⟨h.db, h.caches⟩) x _ ?_ t
  rw [hv]
  cases v <;> rfl

theorem wp_deleteDatomEncoded (x : Entry) (hv : x.val.target = v.target) (t : Txn) :
    wp (deleteDatomEncoded x.e x.aid x.val.enc v)
      (fun _ t' => t'.db = t.db.removed x ∧ SameCaches t t') (fun _ _ => True) t := by
  refine wp_editIndexes txnDel (fun d k t => wp_mono_any (wp_txnDel d k t) fun _ _ h => h) x _ ?_ t
  rw [hv]
  cases v <;> rfl

theorem wp_entityAttrValues (e : UInt64) (aid : UInt32) (h : IndexInv t.db) :
    wp (entityAttrValues e aid) (fun l t' => Untouched t t' ∧
        ∀ venc, venc ∈ l ↔ ∃ kv : KeyVal, venc = kv.enc ∧ t.db.Has ⟨e, aid, kv⟩)
      (fun _ _ => True) t := by
  refine wp_seq_any (wp_lmdbCall t) ?_
  intro _ t1 h1
  rw [wp_bind, wp_get, wp_pure, h1.1]
  refine ⟨h1, ?_⟩
  intro venc
  rw [prefixScan_eq_filter (t.db .eav).sorted]
  simp only [mem_map, mem_filter, isPrefixOf_iff_prefix]
  constructor
  · rintro ⟨entry, ⟨hmem, hpre⟩, rfl⟩
    obtain ⟨x, hx⟩ := h.eav entry.1 (mem_map_of_mem hmem)
    rw [hx] at hpre ⊢
    obtain ⟨rfl, rfl⟩ := prefix_eavKey_ea_iff.mp hpre
    refine ⟨x.val, ?_, ?_⟩
    · simp [eavKey, ← append_assoc]
    · unfold Db.Has
      rw [← hx]
      exact mem_map_of_mem hmem
  · rintro ⟨kv, rfl, hkv⟩
    obtain ⟨entry, hmem, hk⟩ := mem_map.mp hkv
    refine ⟨entry, ⟨hmem, ?_⟩, ?_⟩
    · rw [hk]
      exact prefix_eavKey_ea_iff.mpr ⟨rfl, rfl⟩
    · rw [hk]
      simp [eavKey, ← append_assoc]

theorem wp_deleteDatoms (e : UInt64) (aid : UInt32) : ∀ (kvs : List KeyVal) {t : Txn},
    IndexInv t.db →
    wp (deleteDatoms e aid (kvs.map KeyVal.enc)) (fun _ t' => IndexInv t'.db ∧ IndexFrame t t' ∧
        ∀ y, t'.db.Has y ↔ t.db.Has y ∧ ¬ (y.e = e ∧ y.aid = aid ∧ y.val ∈ kvs))
      (fun _ _ => True) t
  | [], t, h => ⟨h, IndexFrame.refl t, by simp⟩
  | kv :: kvs, t, h => by
    refine wp_seq (wp_editIndexes txnDel (fun d k t => wp_mono_any (wp_txnDel d k t) fun _ _ h => h)
      ⟨e, aid, kv⟩ _ ?_ t) ?_
    · cases htarget : kv.target <;> simp only [refTarget_enc, htarget]
    rintro _ t1 ⟨hdb, hc⟩
    have hinv : IndexInv t1.db := hdb ▸ indexInv_removed h _
    refine wp_mono (wp_deleteDatoms e aid kvs hinv) ?_
    rintro _ t2 ⟨hinv2, hframe, hhas⟩
    refine ⟨hinv2, (IndexFrame.of_edited hc hdb).trans hframe, ?_⟩
    intro y
    rw [hhas, hdb, has_removed, Ne, Entry.ext_iff, mem_cons]
    tauto

/-- **Replacement**: unless the attribute keeps many values, every entry of `(e, aid)` goes and
all others stay. -/
theorem wp_replaceExisting (e : UInt64) (aid : UInt32) (props : AttrProps) (h : IndexInv t.db) :
    wp (replaceExisting e aid props) (fun _ t' => IndexInv t'.db ∧ IndexFrame t t' ∧
        ∀ y, t'.db.Has y ↔ t.db.Has y ∧ (props.cardinalityMany = false → ¬ (y.e = e ∧ y.aid = aid)))
      (fun _ _ => True) t := by
  unfold replaceExisting
  split
  · rename_i hmany
    exact ⟨h, IndexFrame.refl t, by simp [hmany]⟩
  · refine wp_seq (wp_entityAttrValues e aid h) ?_
    rintro l t1 ⟨h1, hl⟩
    obtain ⟨kvs, rfl⟩ : ∃ kvs : List KeyVal, l = kvs.map KeyVal.enc := by
      have : ∀ venc ∈ l, ∃ kv : KeyVal, kv.enc = venc := by
        intro venc hv
        obtain ⟨kv, rfl, -⟩ := (hl venc).mp hv
        exact ⟨kv, rfl⟩
      clear hl
      induction l with
      | nil => exact ⟨[], rfl⟩
      | cons venc l ih =>
        obtain ⟨kv, hkv⟩ := this venc (.head _)
        obtain ⟨kvs, hkvs⟩ := ih (fun v hv => this v (.tail _ hv))
        exact ⟨kv :: kvs, by rw [map_cons, hkv, hkvs]⟩
    have hmem : ∀ kv, kv ∈ kvs ↔ t.db.Has ⟨e, aid, kv⟩ := by
      intro kv
      have := hl kv.enc
      simp only [mem_map, KeyVal.enc_inj, exists_eq_right, exists_eq_left'] at this
      exact this
    refine wp_mono (wp_deleteDatoms e aid kvs (h1.1 ▸ h)) ?_
    rintro _ t2 ⟨hinv, hframe, hhas⟩
    refine ⟨hinv, ?_, ?_⟩
    · exact IndexFrame.trans ⟨h1.2, fun d _ => by rw [h1.1]⟩ hframe
    · intro y
      rw [hhas, h1.1]
      constructor
      · rintro ⟨hy, hnot⟩
        refine ⟨hy, fun _ => ?_⟩
        rintro ⟨rfl, rfl⟩
        exact hnot ⟨rfl, rfl, (hmem y.val).mpr hy⟩
      · grind

end Clojurust.Datalog
