import Clojurust.Datalog.Attributes

/-!
# The store invariant

`StoreInv` holds of every store that a history of `open`, `set_attr` and `transact` calls can
reach, whether they succeed or fail.

* `wp_applyOp_index`, `wp_applyOp` — one operation keeps it, and `OpSpec` says what it does to the entries;
* `carries_call`, `storeInv_run` — every call keeps it, and so does every history.

The digest has no collisions on `R`, the byte strings that the history hashes.
-/

namespace Clojurust.Datalog

open SortedTable StateExcept

variable (digest : Bytes → Digest) (R : Set Bytes)

@[grind cases]
structure StoreInv (s : Store) : Prop where
  index : IndexInv s.db
  giants : GiantInv digest R s.db
  content : ∀ x, s.db.Has x → ∃ v, KeyOf s.db v x.val
  cache : CacheInv s
  schema : SchemaInv s

/-- The operation hashes nothing outside `R`. -/
def Op.HashesIn (op : Op) : Prop := ∀ raw, hashedBytes op.value = some raw → raw ∈ R

/-- Nor does a value, if there is one. -/
def HashedIn (v : Option StoreValue) : Prop := ∀ w raw, v = some w → hashedBytes w = some raw → raw ∈ R

variable {digest R}

/-! ## Frames -/

/-- The caches, the schema and the id counter stay. -/
@[grind cases]
structure AttrFrame (t t' : Txn) : Prop where
  caches : SameCaches t t'
  schema : t'.db .schema = t.db .schema
  counter : (t'.db .metaDb).get META_NEXT_AID = (t.db .metaDb).get META_NEXT_AID

variable {t t' : Txn} {op : Op} {r : UInt32 × AttrProps} {s : Store}

theorem AttrFrame.trans {u v : Txn} (h : AttrFrame t u) (h' : AttrFrame u v) : AttrFrame t v :=
  ⟨h.caches.trans h'.caches, h'.schema.trans h.schema, h'.counter.trans h.counter⟩

theorem IndexFrame.attr (h : IndexFrame t t') : AttrFrame t t' :=
  ⟨h.caches, h.tables _ (by decide), by rw [h.tables _ (by decide)]⟩

theorem GiantFrame.attr (h : GiantFrame t t') : AttrFrame t t' :=
  ⟨h.caches, h.tables _ (by decide), h.metaDb _ (by decide)⟩

theorem AttrFrame.cacheInv (hf : AttrFrame t t') (h : CacheInv t.toStore) :
    CacheInv t'.toStore := by
  refine ⟨?_, ?_⟩
  · rw [hf.caches.1, hf.caches.2]; exact h.names
  · rw [hf.caches.1, hf.caches.2]; exact h.total

theorem AttrFrame.schemaInv (hf : AttrFrame t t') (h : SchemaInv t.toStore) :
    SchemaInv t'.toStore := by
  unfold SchemaInv
  rw [hf.schema, hf.caches.1]
  exact h

theorem AttrFrame.attrInv (hf : AttrFrame t t') (h : AttrInv t.toStore) : AttrInv t'.toStore := by
  have hc : Datalog.counter t'.db META_NEXT_AID = Datalog.counter t.db META_NEXT_AID := by
    unfold Datalog.counter
    rw [hf.counter]
  refine ⟨?_, ?_, ?_, ?_⟩
  · rw [hf.caches.1, hf.caches.2]; exact h.bij
  · rw [hf.caches.1, hf.schema]; exact h.persisted
  · rw [hf.caches.1, hc]; exact h.bounded
  · rw [hc, hf.schema]; exact h.counted

/-! ## One operation -/

/-- The entries after an operation, given the attribute's id, its cardinality and the key of
the value. -/
def Op.entriesAfter (aid : UInt32) (many : Bool) (kv : KeyVal) (P : Entry → Prop) (y : Entry) :
    Op → Prop
  | .add e _ _ => y = ⟨e, aid, kv⟩ ∨ (P y ∧ (many = false → ¬ (y.e = e ∧ y.aid = aid)))
  | .retract e _ _ => y ≠ ⟨e, aid, kv⟩ ∧ P y

variable (digest R) in
/-- What a successful operation does. -/
@[grind cases]
structure OpSpec (op : Op) (t t' : Txn) : Prop where
  inv : StoreInv digest R t'.toStore
  attr : AttrInv t.toStore → AttrInv t'.toStore
  others : ∀ m, m ≠ op.attr → t'.attrs.get m = t.attrs.get m
  known : ∀ r, t.attrs.get op.attr = some r → t'.attrs.get op.attr = some r
  giants : ∀ k b, (t.db .giants).get k = some b → (t'.db .giants).get k = some b
  effect : ∃ (aid : UInt32) (p : AttrProps) (kv : KeyVal),
    t'.attrs.get op.attr = some (aid, p) ∧ KeyOf t'.db op.value kv ∧
    p = ((t.attrs.get op.attr).map Prod.snd).getD {} ∧
    ∀ y, t'.db.Has y ↔ op.entriesAfter aid p.cardinalityMany kv t.db.Has y

variable (digest R) in
/-- The states inside an operation: after interning (`t₁`), after replacing (`t₂`), after
encoding the value (`t₃`) and after the index update (`t₄`). -/
@[grind cases]
structure OpSteps (op : Op) (r : UInt32 × AttrProps) (kv : KeyVal) (t t₁ t₂ t₃ t₄ : Txn) : Prop where
  intern : InternSpec op.attr t.toStore r t₁.toStore
  props : r.2 = ((t.attrs.get op.attr).map Prod.snd).getD {}
  index₂ : IndexInv t₂.db
  frame₂ : IndexFrame t₁ t₂
  giants₃ : GiantInv digest R t₃.db
  frame₃ : GiantFrame t₂ t₃
  key : KeyOf t₃.db op.value kv
  index₄ : IndexInv t₄.db
  frame₄ : IndexFrame t₃ t₄
  entries : ∀ y, t₄.db.Has y ↔ op.entriesAfter r.1 r.2.cardinalityMany kv t₁.db.Has y

theorem Op.entriesAfter_cases {aid : UInt32} {many : Bool} {kv : KeyVal}
    {P : Entry → Prop} {y : Entry} (h : op.entriesAfter aid many kv P y) :
    (∃ e, y = ⟨e, aid, kv⟩) ∨ P y := by
  cases op with
  | add =>
    rcases h with h | h
    all_goals grind
  | retract => exact .inr h.2

/-- The four parts of an operation make up what it does. -/
theorem OpSteps.opSpec {kv : KeyVal} {t₁ t₂ t₃ t₄ : Txn}
    (h : OpSteps digest R op r kv t t₁ t₂ t₃ t₄) (hinv : StoreInv digest R t.toStore) :
    OpSpec digest R op t t₄ := by
  have hframe : AttrFrame t₁ t₄ := (h.frame₂.attr.trans h.frame₃.attr).trans h.frame₄.attr
  have hhas₁ : t₁.db.Has = t.db.Has := by
    funext y
    unfold Db.Has
    rw [h.intern.tables _ (by decide)]
  have hgiants₄ : t₄.db .giants = t₃.db .giants := h.frame₄.tables _ (by decide)
  have hgiants : ∀ k b, (t.db .giants).get k = some b → (t₄.db .giants).get k = some b := by
    intro k b hb
    rw [hgiants₄]
    apply h.frame₃.giants
    rw [h.frame₂.tables _ (by decide), h.intern.tables _ (by decide)]
    exact hb
  have hkey : KeyOf t₄.db op.value kv := by
    refine h.key.mono ?_
    rw [hgiants₄]
    exact fun _ _ hb => hb
  refine ⟨⟨h.index₄, ?_, ?_, hframe.cacheInv (h.intern.cache hinv.cache),
    hframe.schemaInv (h.intern.schema hinv.schema)⟩, ?_, ?_, ?_, hgiants, ?_⟩
  · refine h.giants₃.congr hgiants₄ (h.frame₄.tables _ (by decide)) ?_
    rw [h.frame₄.tables _ (by decide)]
  · intro y hy
    rcases Op.entriesAfter_cases ((h.entries y).mp hy) with ⟨e, rfl⟩ | hy
    · exact ⟨op.value, hkey⟩
    · obtain ⟨v, hv⟩ := hinv.content y (hhas₁ ▸ hy)
      exact ⟨v, hv.mono hgiants⟩
  · intro hattr
    exact hframe.attrInv (h.intern.attr hinv.schema hattr)
  · intro m hm
    rw [hframe.caches.1]
    exact h.intern.others m hm
  · intro r' hr'
    -- a cached attribute comes back with the id and the properties it had
    obtain ⟨aid, p⟩ := r'
    obtain ⟨p', hp'⟩ := h.intern.ext op.attr aid p hr'
    have hp := h.props
    rw [hframe.caches.1, h.intern.found]
    grind
  · refine ⟨r.1, r.2, kv, ?_, hkey, h.props, ?_⟩
    · rw [hframe.caches.1]
      exact h.intern.found
    · intro y
      rw [h.entries, hhas₁]

/-- **One operation** keeps the indexes in agreement, and without collisions also the invariant; it
then does to the entries what it says. -/
theorem wp_applyOp_index (op : Op) (hidx : IndexInv t.db) :
    wp (applyOp digest op) (fun _ t' => IndexInv t'.db ∧ (Set.InjOn digest R → op.HashesIn R →
      StoreInv digest R t.toStore → OpSpec digest R op t t')) (fun _ _ => True) t := by
  cases op with
  | add e a v =>
    refine wp_seq_any (wp_internAttr a none t) ?_
    rintro r t₁ ⟨h₁, hprops⟩
    refine wp_seq (wp_replaceExisting e r.1 r.2 (hidx.congr h₁.tables (by decide))) ?_
    rintro _ t₂ ⟨hidx₂, h₂, hhas₂⟩
    refine wp_seq (wp_encodeValueForKey (R := R) v t₂) ?_
    rintro venc t₃ ⟨kv, rfl, htarget, hidx₃, hkey⟩
    refine wp_mono (wp_insertDatom ⟨e, r.1, kv⟩ htarget t₃) ?_
    rintro _ t₄ ⟨hdb, hc⟩
    have hidx₄ : IndexInv t₄.db := hdb ▸ indexInv_inserted (hidx₃ hidx₂) _
    refine ⟨hidx₄, fun hinj hop hinv => ?_⟩
    have hg₂ : GiantInv digest R t₂.db := by
      have htables : ∀ d ∈ [Dbi.giants, .giantIds], t₂.db d = t.db d := fun d hd =>
        (h₂.tables d (by grind)).trans (h₁.tables d (by grind))
      refine hinv.giants.congr (htables _ (by decide)) (htables _ (by decide)) ?_
      rw [h₂.tables _ (by decide)]
      exact h₁.metaDb _ (by decide)
    obtain ⟨hg₃, h₃, hkv⟩ := hkey hinj hop hg₂
    refine OpSteps.opSpec (r := r) ⟨h₁, hprops rfl, hidx₂, h₂, hg₃, h₃, hkv, hidx₄,
      IndexFrame.of_edited hc hdb, ?_⟩ hinv
    intro y
    rw [hdb, has_inserted]
    simp only [Op.entriesAfter]
    rw [← hhas₂ y]
    unfold Db.Has
    rw [h₃.tables _ (by decide)]
  | retract e a v =>
    refine wp_seq_any (wp_internAttr a none t) ?_
    rintro r t₁ ⟨h₁, hprops⟩
    have hidx₁ : IndexInv t₁.db := hidx.congr h₁.tables (by decide)
    refine wp_seq (wp_encodeValueForKey (R := R) v t₁) ?_
    rintro venc t₃ ⟨kv, rfl, htarget, hidx₃, hkey⟩
    refine wp_mono (wp_deleteDatomEncoded ⟨e, r.1, kv⟩ htarget t₃) ?_
    rintro _ t₄ ⟨hdb, hc⟩
    have hidx₄ : IndexInv t₄.db := hdb ▸ indexInv_removed (hidx₃ hidx₁) _
    refine ⟨hidx₄, fun hinj hop hinv => ?_⟩
    obtain ⟨hg₃, h₃, hkv⟩ := hkey hinj hop
      (hinv.giants.congr (h₁.tables _ (by decide)) (h₁.tables _ (by decide)) (h₁.metaDb _ (by decide)))
    refine OpSteps.opSpec (r := r) ⟨h₁, hprops rfl, hidx₁, IndexFrame.refl t₁, hg₃, h₃, hkv, hidx₄,
      IndexFrame.of_edited hc hdb, ?_⟩ hinv
    intro y
    rw [hdb, has_removed]
    unfold Op.entriesAfter Db.Has
    rw [h₃.tables _ (by decide)]

theorem wp_applyOp (hinj : Set.InjOn digest R) (hop : op.HashesIn R)
    (hinv : StoreInv digest R t.toStore) :
    wp (applyOp digest op) (fun _ t' => OpSpec digest R op t t') (fun _ _ => True) t :=
  wp_mono (wp_applyOp_index op hinv.index) fun _ _ h => h.2 hinj hop hinv

/-! ## Failures -/

/-- What holds of the caches even where a transaction fails: no attribute is lost or gets
another id, and they keep naming each other. -/
def AttrStep (t t' : Txn) : Prop :=
  AttrsExt t.toStore t'.toStore ∧ (CacheInv t.toStore → CacheInv t'.toStore)

theorem AttrStep.refl (t : Txn) : AttrStep t t := ⟨fun _ _ p hp => ⟨p, hp⟩, id⟩

theorem AttrStep.trans {u v : Txn} (h : AttrStep t u) (h' : AttrStep u v) : AttrStep t v :=
  ⟨h.1.trans h'.1, fun hc => h'.2 (h.2 hc)⟩

theorem SameCaches.attrStep (h : SameCaches t t') : AttrStep t t' := by
  refine ⟨?_, ?_⟩
  · intro n aid p hp
    exact ⟨p, by rw [h.1]; exact hp⟩
  · rintro ⟨hn, ht⟩
    refine ⟨?_, ?_⟩ <;> rw [h.1, h.2]
    · exact hn
    · exact ht

theorem keepsAttr_of_caches {α : Type} {x : Tx α} (h : Keeps SameCaches x) : Keeps AttrStep x :=
  h.mono fun _ _ => SameCaches.attrStep

theorem keepsAttr_bind {α β : Type} {x : Tx α} {f : α → Tx β} (hx : Keeps AttrStep x)
    (hf : ∀ a, Keeps AttrStep (f a)) : Keeps AttrStep (x >>= f) :=
  Keeps.bind AttrStep.trans hx hf

theorem keepsAttr_internAttr (name : String) (props : Option AttrProps) :
    Keeps AttrStep (internAttr name props) :=
  fun t => wp_weaken (wp_internAttr name props t) (fun _ _ h => ⟨h.1.ext, h.1.cache⟩)
    (fun _ _ h => h.attrStep)

theorem keepsAttr_applyOp (op : Op) : Keeps AttrStep (applyOp digest op) := by
  cases op with
  | add e a v =>
    refine keepsAttr_bind (keepsAttr_internAttr a none) fun r => ?_
    refine keepsAttr_of_caches (Keeps.caches_bind (keeps_replaceExisting e r.1 r.2) fun _ => ?_)
    exact Keeps.caches_bind (keeps_encodeValueForKey digest v) fun venc =>
      keeps_insertDatom e r.1 venc v
  | retract e a v =>
    refine keepsAttr_bind (keepsAttr_internAttr a none) fun r => ?_
    exact keepsAttr_of_caches (Keeps.caches_bind (keeps_encodeValueForKey digest v) fun venc =>
      keeps_deleteDatomEncoded e r.1 venc v)

theorem keepsAttr_applyOps : ∀ (ops : List Op) (maxEid : UInt64),
    Keeps AttrStep (applyOps digest ops maxEid)
  | [], _ => keeps_pure AttrStep.refl _
  | op :: ops, maxEid =>
    keepsAttr_bind (keepsAttr_applyOp op) fun _ => keepsAttr_applyOps ops (op.maxEid maxEid)

theorem keepsAttr_transactTxn (ops : List Op) : Keeps AttrStep (transactTxn digest ops) := by
  refine keepsAttr_bind (keepsAttr_of_caches keeps_lmdbCall) fun _ => ?_
  refine keepsAttr_bind (keepsAttr_of_caches (keeps_txnGet _ _)) fun stored => ?_
  refine keepsAttr_bind (keepsAttr_applyOps ops _) fun maxEid => ?_
  exact keepsAttr_of_caches (Keeps.caches_bind (keeps_txnPut _ _ _) fun _ => keeps_lmdbCall)

theorem keepsAttr_setAttrTxn (name : String) (props : AttrProps) :
    Keeps AttrStep (setAttrTxn name props) := by
  refine keepsAttr_bind (keepsAttr_of_caches keeps_lmdbCall) fun _ => ?_
  exact keepsAttr_bind (keepsAttr_internAttr name _) fun _ => keepsAttr_of_caches keeps_lmdbCall

/-! ## Whole transactions -/

theorem toStore_of_untouched (h : Untouched t t') : t'.toStore = t.toStore := by
  obtain ⟨hdb, ha, hn⟩ := h
  show (⟨t'.db, t'.attrs, t'.attrNames⟩ : Store) = ⟨t.db, t.attrs, t.attrNames⟩
  rw [hdb, ha, hn]

/-- Only `max-eid` changes. -/
@[grind cases]
structure MaxEidFrame (t t' : Txn) : Prop where
  attr : AttrFrame t t'
  tables : ∀ d ∉ [Dbi.schema, .metaDb], t'.db d = t.db d
  nextGiant : (t'.db .metaDb).get META_NEXT_GIANT = (t.db .metaDb).get META_NEXT_GIANT

theorem MaxEidFrame.of_put {value : Bytes}
    (h : PutSpec .metaDb META_MAX_EID value t t') : MaxEidFrame t t' := by
  have hmeta : ∀ k, k ≠ META_MAX_EID → (t'.db .metaDb).get k = (t.db .metaDb).get k := by
    intro k hk
    rw [h.db, Db.set_self, Table.get_put_of_ne _ _ hk]
  refine ⟨⟨h.caches, by rw [h.db]; rfl, hmeta _ (by decide)⟩, fun d hd => ?_, hmeta _ (by decide)⟩
  rw [h.db, Db.set_of_ne]
  grind

theorem StoreInv.congr {s' : Store} (hinv : StoreInv digest R s)
    (hdb : ∀ d ∉ [Dbi.schema, .metaDb], s'.db d = s.db d)
    (hnext : (s'.db .metaDb).get META_NEXT_GIANT = (s.db .metaDb).get META_NEXT_GIANT)
    (hcache : CacheInv s') (hschema : SchemaInv s') : StoreInv digest R s' := by
  have hgiants := hdb .giants (by decide)
  refine ⟨hinv.index.congr hdb (by decide), hinv.giants.congr hgiants (hdb _ (by decide)) hnext, ?_,
    hcache, hschema⟩
  intro x hx
  unfold Db.Has at hx
  rw [hdb _ (by decide)] at hx
  obtain ⟨v, hv⟩ := hinv.content x hx
  refine ⟨v, hv.mono ?_⟩
  grind

theorem MaxEidFrame.storeInv (h : MaxEidFrame t t')
    (hinv : StoreInv digest R t.toStore) : StoreInv digest R t'.toStore :=
  hinv.congr h.tables h.nextGiant (h.attr.cacheInv hinv.cache) (h.attr.schemaInv hinv.schema)

theorem wp_transactTxn {ops : List Op} {Q : Txn → Prop}
    (hops : ∀ (u : Txn) (maxEid : UInt64), u.toStore = t.toStore →
      wp (applyOps digest ops maxEid) (fun _ u' => ∀ v, MaxEidFrame u' v → Q v) (fun _ _ => True) u)
    (hQ : ∀ u v : Txn, v.toStore = u.toStore → Q u → Q v) :
    wp (transactTxn digest ops) (fun _ t' => Q t') (fun _ _ => True) t := by
  refine wp_seq_any (wp_lmdbCall t) ?_
  intro _ t₁ h₁
  refine wp_seq_any (wp_txnGet _ _ t₁) ?_
  rintro stored t₂ ⟨-, h₂⟩
  have hsame : t₂.toStore = t.toStore := (toStore_of_untouched h₂).trans (toStore_of_untouched h₁)
  refine wp_seq (hops t₂ _ hsame) ?_
  intro maxEid t₃ h₃
  refine wp_seq_any (wp_txnPut _ _ _ t₃) ?_
  intro _ t₄ h₄
  refine wp_mono_any (wp_lmdbCall t₄) ?_
  intro _ t₅ h₅
  exact hQ t₄ t₅ (toStore_of_untouched h₅) (h₃ t₄ (MaxEidFrame.of_put h₄))

theorem wp_setAttrTxn (name : String) (props : AttrProps) (t : Txn) : wp (setAttrTxn name props)
      (fun _ t' => ∃ r, InternSpec name t.toStore r t'.toStore) (fun _ t' => AttrStep t t') t := by
  refine wp_of ?_ (fun e t' h => wp_error (keepsAttr_setAttrTxn name props t) h)
  have hok : wp (setAttrTxn name props) (fun _ t' => ∃ r, InternSpec name t.toStore r t'.toStore)
      (fun _ _ => True) t := by
    unfold setAttrTxn
    refine wp_seq_any (wp_lmdbCall t) ?_
    intro _ t₁ h₁
    refine wp_seq_any (wp_internAttr name (some props) t₁) ?_
    rintro r t₂ ⟨h₂, -⟩
    refine wp_mono_any (wp_lmdbCall t₂) ?_
    intro _ t₃ h₃
    rw [toStore_of_untouched h₃]
    rw [toStore_of_untouched h₁] at h₂
    exact ⟨r, h₂⟩
  exact fun _ _ h => wp_ok hok h

/-! ## Calls and histories -/

theorem Store.write_ok {fault : Fault} {x : Tx Unit} {s' : Store}
    (h : s.write fault x = (.ok (), s')) :
    ∃ t, x ⟨s, fault.served, fault.code⟩ = .ok () t ∧ s' = t.toStore := by
  unfold Store.write at h
  grind

/-- The indexes agree, and if nothing speaks against it, the invariant is kept. -/
def Carries (digest : Bytes → Digest) (R : Set Bytes) (ok : Prop) (s s' : Store) : Prop :=
  IndexInv s'.db ∧ (ok → StoreInv digest R s → StoreInv digest R s')

theorem carries_write {ok : Prop} (h : IndexInv s.db) (fault : Fault) {x : Tx Unit}
    (hok : ∀ t : Txn, t.toStore = s →
      wp x (fun _ t' => Carries digest R ok s t'.toStore) (fun _ _ => True) t)
    (hkeep : Keeps AttrStep x) : Carries digest R ok s (s.write fault x).2 := by
  unfold Store.write
  split
  · rename_i t ht
    exact wp_ok (hok _ rfl) ht
  · rename_i err t ht
    obtain ⟨hext, hcache⟩ := wp_error (hkeep _) ht
    refine ⟨h, fun _ hinv => ⟨hinv.index, hinv.giants, hinv.content, ?_, ?_⟩⟩
    · obtain ⟨hn, ht⟩ := hcache hinv.cache
      exact ⟨hn, ht⟩
    · intro k b hk
      obtain ⟨n, aid, p, p', hk, hb, hp⟩ := hinv.schema k b hk
      obtain ⟨p'', hp''⟩ := hext n aid p' hp
      exact ⟨n, aid, p, p'', hk, hb, hp''⟩

theorem wp_applyOps_carries : ∀ (ops : List Op) (t : Txn) (maxEid : UInt64), IndexInv t.db →
    wp (applyOps digest ops maxEid) (fun _ t' => Carries digest R
      (Set.InjOn digest R ∧ ∀ op ∈ ops, op.HashesIn R) t.toStore t'.toStore) (fun _ _ => True) t
  | [], _, _, h => ⟨h, fun _ => id⟩
  | op :: ops, t, maxEid, h => by
    refine wp_seq (wp_applyOp_index (R := R) op h) ?_
    rintro _ t₁ ⟨h₁, hspec⟩
    refine wp_mono (wp_applyOps_carries ops t₁ _ h₁) ?_
    rintro _ t₂ ⟨h₂, hinv₂⟩
    refine ⟨h₂, fun ⟨hinj, hops⟩ hinv => ?_⟩
    rw [List.forall_mem_cons] at hops
    exact hinv₂ ⟨hinj, hops.2⟩ (hspec hinj hops.1 hinv).inv

theorem InternSpec.storeInv {name : String} {s' : Store}
    (h : InternSpec name s r s') (hinv : StoreInv digest R s) : StoreInv digest R s' :=
  hinv.congr h.tables (h.metaDb _ (by decide)) (h.cache hinv.cache) (h.schema hinv.schema)

variable (R) in
/-- The call hashes nothing outside `R`. -/
def Call.HashesIn : Call → Prop
  | .transact _ ops => ∀ op ∈ ops, op.HashesIn R
  | _ => True

theorem storeInv_create : StoreInv digest R Store.create where
  index := by
    refine ⟨?_, ?_, ?_⟩
    · intro k hk
      cases hk
    · intro k
      constructor
      · intro hk
        cases hk
      · rintro ⟨x, hx, -⟩
        cases hx
    · intro k
      constructor
      · intro hk
        cases hk
      · rintro ⟨t, aid, e, hx, -⟩
        cases hx
  giants := ⟨fun _ _ h => (by cases h), fun _ _ h => (by cases h), Nat.le_refl 0⟩
  content := by
    intro x hx
    cases hx
  cache := ⟨fun _ _ h => (by cases h), fun _ _ _ h => (by cases h)⟩
  schema := by
    intro k b h
    cases h

/-- **One call** on the store, successful or failed. -/
theorem carries_call (h : IndexInv s.db) (c : Call) :
    Carries digest R (Set.InjOn digest R ∧ c.HashesIn R) s (s.step digest c) := by
  unfold Store.step
  cases c with
  | reopen =>
    refine ⟨?_, fun _ hinv => ?_⟩
    · simp only [Store.call, openStore]
      cases loadAttrs (s.db .schema).entries Table.empty Table.empty <;> exact h
    · obtain ⟨s', hopen, hdb, hcache, hschema, -⟩ := openStore_spec hinv.cache hinv.schema
      simp only [Store.call, hopen]
      refine ⟨?_, ?_, ?_, hcache, hschema⟩
      all_goals grind
  | setAttr fault name props =>
    refine carries_write h fault ?_ (keepsAttr_setAttrTxn name props)
    rintro t rfl
    refine wp_mono_any (wp_setAttrTxn name props t) ?_
    rintro _ t' ⟨r, hr⟩
    exact ⟨h.congr hr.tables (by decide), fun _ => hr.storeInv⟩
  | transact fault ops =>
    refine carries_write h fault ?_ (keepsAttr_transactTxn ops)
    rintro t rfl
    refine wp_transactTxn (Q := fun t' => Carries digest R _ t.toStore t'.toStore) ?_ ?_
    · intro u maxEid hu
      rw [← hu] at h ⊢
      refine wp_mono (wp_applyOps_carries (R := R) ops u maxEid h) ?_
      rintro _ u' ⟨hindex, hinv⟩ v hv
      exact ⟨hindex.congr hv.tables (by decide), fun hok hu => hv.storeInv (hinv hok hu)⟩
    · grind

/-- **The indexes agree after every history of calls**, successful or failed, and without collisions
the invariant holds. -/
theorem carries_run : ∀ (calls : List Call) (s : Store), IndexInv s.db → Carries digest R
    (Set.InjOn digest R ∧ ∀ c ∈ calls, c.HashesIn R) s (s.run digest calls)
  | [], _, h => ⟨h, fun _ => id⟩
  | c :: calls, s, h => by
    obtain ⟨h₁, hinv₁⟩ := carries_call (R := R) h c
    obtain ⟨h₂, hinv₂⟩ := carries_run calls (s.step digest c) h₁
    refine ⟨h₂, fun ⟨hinj, hc⟩ hinv => ?_⟩
    rw [List.forall_mem_cons] at hc
    exact hinv₂ ⟨hinj, hc.2⟩ (hinv₁ ⟨hinj, hc.1⟩ hinv)

theorem storeInv_run (hinj : Set.InjOn digest R) (calls : List Call) (s : Store)
    (h : StoreInv digest R s) (hc : ∀ c ∈ calls, c.HashesIn R) : StoreInv digest R (s.run digest calls) :=
  (carries_run calls s h.index).2 ⟨hinj, hc⟩ h

end Clojurust.Datalog
