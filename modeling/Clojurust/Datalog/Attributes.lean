import Clojurust.Datalog.Giants

/-!
# Attribute names and ids

* `CacheInv` — the two caches name each other, in every state: an id resolves to a name that
  carries it.  Two names may still share an id;
* `SchemaInv` — every schema record belongs to a cached attribute of that id;
* `AttrInv` — ids and names are in bijection, and the schema table holds them all;
* `wp_internAttr` — interning keeps all three;
* `openStore_spec` — opening reads back exactly what the schema table holds.
-/

namespace Clojurust.Datalog

open SortedTable StateExcept

/-- Ids resolve to names that carry them. -/
@[grind cases]
structure CacheInv (s : Store) : Prop where
  names : ∀ aid n, s.attrNames.get aid = some n → ∃ p, s.attrs.get n = some (aid, p)
  total : ∀ n aid p, s.attrs.get n = some (aid, p) → ∃ m, s.attrNames.get aid = some m

/-- Schema records belong to cached attributes. -/
def SchemaInv (s : Store) : Prop :=
  ∀ k b, (s.db .schema).get k = some b → ∃ n aid p p',
    k = asBytes n ∧ b = schemaRecord aid p ∧ s.attrs.get n = some (aid, p')

/-- The attribute ids are a bijection, and they are the persisted ones. -/
@[grind cases]
structure AttrInv (s : Store) : Prop where
  bij : ∀ n aid p, s.attrs.get n = some (aid, p) → s.attrNames.get aid = some n
  persisted : ∀ n aid p, s.attrs.get n = some (aid, p) →
    ∃ p', (s.db .schema).get (asBytes n) = some (schemaRecord aid p')
  bounded : ∀ n aid p, s.attrs.get n = some (aid, p) →
    aid.toNat ≤ (counter s.db META_NEXT_AID).toNat
  counted : (counter s.db META_NEXT_AID).toNat ≤ (s.db .schema).size

/-- Attributes stay in the cache, under the id they have. -/
def AttrsExt (s s' : Store) : Prop :=
  ∀ n aid p, s.attrs.get n = some (aid, p) → ∃ p', s'.attrs.get n = some (aid, p')

variable {s s' : Store} {name : String} {aid : UInt32} {props p : AttrProps}

theorem AttrsExt.trans {s'' : Store} (h : AttrsExt s s') (h' : AttrsExt s' s'') :
    AttrsExt s s'' := by
  intro n aid p hp
  obtain ⟨p', hp'⟩ := h n aid p hp
  exact h' n aid p' hp'

/-! ## Writing an attribute -/

section Write

variable {s s' : Store} {name : String} {aid : UInt32} {props : AttrProps}

/-- The name is new, or already has the id. -/
def IdFits (s : Store) (name : String) (aid : UInt32) : Prop :=
  ∀ aid' p, s.attrs.get name = some (aid', p) → aid' = aid

variable (hfit : IdFits s name aid) (ha : s'.attrs = s.attrs.put name (aid, props))
include hfit ha

theorem attrsExt_put : AttrsExt s s' := by
  intro n aid' p hp
  rw [ha, Table.get_put]
  split
  · rename_i hn
    subst hn
    exact ⟨props, by rw [hfit aid' p hp]⟩
  · exact ⟨p, hp⟩

theorem cacheInv_put (h : CacheInv s) (hn : s'.attrNames = s.attrNames.put aid name) :
    CacheInv s' := by
  refine ⟨?_, ?_⟩
  · intro aid' n hget
    rw [hn, Table.get_put] at hget
    rw [ha]
    split at hget
    · rename_i hid
      cases hget
      exact ⟨props, by rw [Table.get_put_self, hid]⟩
    · rename_i hid
      obtain ⟨p, hp⟩ := h.names aid' n hget
      refine ⟨p, ?_⟩
      rw [Table.get_put_of_ne _ _ ?_]
      · exact hp
      · rintro rfl
        exact hid (hfit aid' p hp)
  · intro n aid' p hget
    rw [ha, Table.get_put] at hget
    rw [hn]
    by_cases hid : aid' = aid
    · exact ⟨name, by rw [hid, Table.get_put_self]⟩
    · rw [Table.get_put_of_ne _ _ hid]
      grind

theorem attrInv_put (h : AttrInv s) (hnew : ∀ n p, s.attrs.get n = some (aid, p) → n = name)
    (hn : s'.attrNames = s.attrNames.put aid name)
    (hs : s'.db .schema = (s.db .schema).put (asBytes name) (schemaRecord aid props))
    (hle : (counter s.db META_NEXT_AID).toNat ≤ (counter s'.db META_NEXT_AID).toNat)
    (haid : aid.toNat ≤ (counter s'.db META_NEXT_AID).toNat)
    (hcount : (counter s'.db META_NEXT_AID).toNat ≤ (s'.db .schema).size) : AttrInv s' := by
  have hcases : ∀ n aid' p, s'.attrs.get n = some (aid', p) →
      (n = name ∧ aid' = aid ∧ p = props) ∨ (n ≠ name ∧ s.attrs.get n = some (aid', p)) := by
    intro n aid' p hget
    rw [ha, Table.get_put] at hget
    split at hget
    · grind
    · grind
  refine ⟨?_, ?_, ?_, hcount⟩
  · intro n aid' p hget
    rw [hn]
    rcases hcases n aid' p hget with ⟨rfl, rfl, -⟩ | ⟨hname, hold⟩
    · exact Table.get_put_self _ _ _
    · rw [Table.get_put_of_ne _ _ ?_]
      all_goals grind
  · intro n aid' p hget
    rw [hs]
    rcases hcases n aid' p hget with ⟨rfl, rfl, rfl⟩ | ⟨hname, hold⟩
    · exact ⟨p, Table.get_put_self _ _ _⟩
    · obtain ⟨p', hp'⟩ := h.persisted n aid' p hold
      refine ⟨p', ?_⟩
      rw [Table.get_put_of_ne _ _ ?_]
      · exact hp'
      · exact fun he => hname (asBytes_inj he)
  · grind

end Write

/-! ## Interning -/

/-- What a successful `intern_attr` does. -/
@[grind cases]
structure InternSpec (name : String) (s : Store) (r : UInt32 × AttrProps) (s' : Store) : Prop where
  found : s'.attrs.get name = some r
  others : ∀ m, m ≠ name → s'.attrs.get m = s.attrs.get m
  ext : AttrsExt s s'
  cache : CacheInv s → CacheInv s'
  schema : SchemaInv s → SchemaInv s'
  attr : SchemaInv s → AttrInv s → AttrInv s'
  tables : ∀ d ∉ [Dbi.schema, .metaDb], s'.db d = s.db d
  metaDb : ∀ k, k ≠ META_NEXT_AID → (s'.db .metaDb).get k = (s.db .metaDb).get k

theorem InternSpec.refl {r : UInt32 × AttrProps}
    (h : s.attrs.get name = some r) : InternSpec name s r s :=
  ⟨h, fun _ _ => rfl, fun _ _ p hp => ⟨p, hp⟩, id, id, fun _ => id, fun _ _ => rfl, fun _ _ => rfl⟩

theorem internSpec_put (hfit : IdFits s name aid) (ha : s'.attrs = s.attrs.put name (aid, props))
    (hn : s'.attrNames = s.attrNames.put aid name)
    (hs : s'.db .schema = (s.db .schema).put (asBytes name) (schemaRecord aid props))
    (hmeta : ∀ k, k ≠ META_NEXT_AID → (s'.db .metaDb).get k = (s.db .metaDb).get k)
    (hdb : ∀ d ∉ [Dbi.schema, .metaDb], s'.db d = s.db d)
    (hattr : SchemaInv s → AttrInv s → AttrInv s') : InternSpec name s (aid, props) s' where
  found := by rw [ha, Table.get_put_self]
  others m hm := by rw [ha, Table.get_put_of_ne _ _ hm]
  ext := attrsExt_put hfit ha
  cache hc := cacheInv_put hfit ha hc hn
  schema hc k b hget := by
    rw [hs, Table.get_put] at hget
    split at hget
    · rename_i hk
      cases hget
      exact ⟨name, aid, props, props, hk, rfl, by rw [ha, Table.get_put_self]⟩
    · obtain ⟨n, aid', p, p', hk, hb, hp⟩ := hc k b hget
      obtain ⟨p'', hp''⟩ := attrsExt_put hfit ha n aid' p' hp
      exact ⟨n, aid', p, p'', hk, hb, hp''⟩
  attr := hattr
  tables := hdb
  metaDb := hmeta

theorem internSpec_update {t t' : Txn}
    (hknown : t.attrs.get name = some (aid, p)) (h : StoreAttrSpec name aid props t t') :
    InternSpec name t.toStore (aid, props) t'.toStore := by
  have hfit : IdFits t.toStore name aid := by
    intro aid' p' hp
    rw [hknown] at hp
    cases hp
    rfl
  have hs : t'.db .schema = (t.db .schema).put (asBytes name) (schemaRecord aid props) := by
    rw [h.db, Db.set_self]
  have hdb : ∀ d, d ≠ .schema → t'.db d = t.db d := fun d hd => by rw [h.db, Db.set_of_ne _ _ hd]
  have hmeta : t'.db .metaDb = t.db .metaDb := hdb _ (by decide)
  have hcounter : counter t'.db META_NEXT_AID = counter t.db META_NEXT_AID := by
    unfold counter
    rw [hmeta]
  refine internSpec_put hfit h.attrs h.attrNames hs ?_ (fun d hd => hdb d (by grind)) ?_
  · grind
  · intro _ hinv
    refine attrInv_put hfit h.attrs hinv ?_ h.attrNames hs ?_ ?_ ?_
    · grind
    · rw [hcounter]
    · grind
    · rw [hcounter, hs]
      exact Nat.le_trans hinv.counted (Table.size_le_size_put _ _ _)

theorem SchemaInv.get_eq_none (h : SchemaInv s)
    (hnone : s.attrs.get name = none) : (s.db .schema).get (asBytes name) = none := by
  cases hget : (s.db .schema).get (asBytes name) with
  | none => rfl
  | some b =>
    obtain ⟨m, aid, p, p', hk, -, hm⟩ := h _ _ hget
    rw [← asBytes_inj hk, hnone] at hm
    cases hm

theorem internSpec_fresh {n : UInt64} {t t1 t' : Txn}
    (hnone : t.attrs.get name = none) (hb : BumpSpec META_NEXT_AID t n t1)
    (h : StoreAttrSpec name n.toUInt32 props t1 t') :
    InternSpec name t.toStore (n.toUInt32, props) t'.toStore := by
  have hfit : IdFits t.toStore name n.toUInt32 := by
    intro aid' p' hp
    rw [hnone] at hp
    cases hp
  have hattrs : t'.attrs = t.attrs.put name (n.toUInt32, props) := by rw [h.attrs, hb.caches.1]
  have hnames : t'.attrNames = t.attrNames.put n.toUInt32 name := by
    rw [h.attrNames, hb.caches.2]
  have hs : t'.db .schema = (t.db .schema).put (asBytes name) (schemaRecord n.toUInt32 props) := by
    rw [h.db, Db.set_self, hb.db, Db.set_of_ne _ _ (by decide)]
  have hmeta : t'.db .metaDb = (t.db .metaDb).put META_NEXT_AID (u64ToBeBytes n) := by
    rw [h.db, Db.set_of_ne _ _ (by decide), hb.db, Db.set_self]
  have hcounter : counter t'.db META_NEXT_AID = n := counter_of_put hmeta
  have hroom : (t.db .schema).size < MAP_SIZE := by
    have := h.room
    rwa [hb.db] at this
  refine internSpec_put hfit hattrs hnames hs ?_ ?_ ?_
  · intro k hk
    rw [hmeta, Table.get_put_of_ne _ _ hk]
  · intro d hd
    simp only [List.mem_cons, not_or] at hd
    rw [h.db, Db.set_of_ne _ _ hd.1, hb.db, Db.set_of_ne _ _ hd.2.1]
  · intro hschema hinv
    have hnat : n.toNat = (counter t.db META_NEXT_AID).toNat + 1 := by
      rw [hb.value, toNat_succ_counter hinv.counted hroom]
    have hcounted := hinv.counted
    -- the map is too small for the counter to reach 32 bits
    have haid : n.toUInt32.toNat = n.toNat := by
      simp only [MAP_SIZE] at hroom
      rw [UInt64.toNat_toUInt32]
      omega
    refine attrInv_put hfit hattrs hinv ?_ hnames hs (by rw [hcounter]; omega)
      (by rw [hcounter, haid]) ?_
    · grind
    · rw [hcounter, hs, Table.size_put_of_get_eq_none _ (hschema.get_eq_none hnone)]
      omega

/-- **Interning an attribute.** -/
theorem wp_internAttr (name : String) (props : Option AttrProps) (t : Txn) :
    wp (internAttr name props) (fun r t' => InternSpec name t.toStore r t'.toStore ∧
        (props = none → r.2 = ((t.attrs.get name).map Prod.snd).getD {}))
      (fun _ t' => SameCaches t t') t := by
  cases hget : t.attrs.get name with
  | none =>
    refine wp_mono (wp_internAttr_fresh hget) ?_
    rintro r t' ⟨n, t1, hb, rfl, h⟩
    refine ⟨internSpec_fresh hget hb h, ?_⟩
    rintro rfl
    rfl
  | some r =>
    cases props with
    | none => exact wp_internAttr_known hget ⟨InternSpec.refl hget, fun _ => rfl⟩
    | some =>
      refine wp_mono (wp_internAttr_update hget) ?_
      rintro r t' ⟨rfl, h⟩
      refine ⟨internSpec_update hget h, ?_⟩
      intro hp
      cases hp

/-! ## Opening -/

theorem AttrProps.ofFlags_flagByte (p : AttrProps) : AttrProps.ofFlags p.flagByte = p := by
  obtain ⟨many, ref, ident, value⟩ := p
  cases many <;> cases ref <;> cases ident <;> cases value <;> rfl

theorem schemaRecord_inj {aid' : UInt32} {p' : AttrProps}
    (h : schemaRecord aid p = schemaRecord aid' p') : aid = aid' ∧ p = p' := by
  obtain ⟨ha, hp⟩ := List.append_inj h (by simp)
  have := congrArg AttrProps.ofFlags (List.cons.inj hp).1
  rw [AttrProps.ofFlags_flagByte, AttrProps.ofFlags_flagByte] at this
  exact ⟨u32ToBeBytes_inj.mp ha, this⟩

theorem loadAttrs_cons (n : String) (aid : UInt32) (p : AttrProps) (entries : List (Bytes × Bytes))
    (attrs : Table String (UInt32 × AttrProps)) (attrNames : Table UInt32 String) :
    loadAttrs ((asBytes n, schemaRecord aid p) :: entries) attrs attrNames =
      loadAttrs entries (attrs.put n (aid, p)) (attrNames.put aid n) := by
  have haid : getSlice (schemaRecord aid p) 0 4 = some (u32ToBeBytes aid) := by
    have : (u32ToBeBytes aid ++ [p.flagByte]).take 4 = u32ToBeBytes aid := List.take_left' (by simp)
    simp [getSlice, schemaRecord, this]
  have hflags : (schemaRecord aid p)[4]? = some p.flagByte := by simp [schemaRecord]
  rw [loadAttrs, fromUtf8_asBytes]
  simp only [haid, hflags, u32FromBeBytes_toBeBytes, AttrProps.ofFlags_flagByte]

/-- Loading adds exactly the attributes of the records, and keeps the caches naming each other. -/
theorem loadAttrs_spec (db : Db) : ∀ (entries : List (Bytes × Bytes))
    (attrs : Table String (UInt32 × AttrProps)) (attrNames : Table UInt32 String),
    (∀ x ∈ entries, ∃ n aid p, x = (asBytes n, schemaRecord aid p)) →
    entries.Pairwise (fun x y => x.1 ≠ y.1) →
    (∀ n b, (asBytes n, b) ∈ entries → attrs.get n = none) →
    CacheInv ⟨db, attrs, attrNames⟩ →
    ∃ attrs' attrNames', loadAttrs entries attrs attrNames = .ok (attrs', attrNames') ∧
      CacheInv ⟨db, attrs', attrNames'⟩ ∧
      ∀ n aid p, attrs'.get n = some (aid, p) ↔
        attrs.get n = some (aid, p) ∨ (asBytes n, schemaRecord aid p) ∈ entries
  | [], attrs, attrNames, _, _, _, hinv => ⟨attrs, attrNames, rfl, hinv, by simp⟩
  | x :: entries, attrs, attrNames, hform, hdist, hnew, hinv => by
    obtain ⟨n, aid, p, rfl⟩ := hform x (.head _)
    obtain ⟨hx, hdist⟩ := List.pairwise_cons.mp hdist
    have hn : attrs.get n = none := hnew n _ (.head _)
    have hfit : IdFits ⟨db, attrs, attrNames⟩ n aid := by
      intro aid' p' hp
      rw [show attrs.get n = some (aid', p') from hp] at hn
      cases hn
    obtain ⟨attrs', attrNames', hload, hinv', hspec⟩ := loadAttrs_spec db entries
      (attrs.put n (aid, p)) (attrNames.put aid n) (fun y hy => hform y (.tail _ hy))
      hdist (by
        intro m b hm
        rw [Table.get_put_of_ne _ _ ?_]
        all_goals grind)
      (cacheInv_put hfit rfl hinv rfl)
    refine ⟨attrs', attrNames', by rw [loadAttrs_cons, hload], hinv', ?_⟩
    intro m aid' p'
    rw [hspec, Table.get_put, List.mem_cons, Prod.mk.injEq]
    split
    · rename_i hm
      subst hm
      rw [hn]
      constructor
      · grind
      · rintro (h | ⟨-, h⟩ | h)
        · cases h
        · obtain ⟨rfl, rfl⟩ := schemaRecord_inj h
          exact .inl rfl
        · exact .inr h
    · rename_i hm
      have : ¬ asBytes m = asBytes n := fun h => hm (asBytes_inj h)
      simp [this]

theorem openStore_caches (hschema : SchemaInv s) : ∃ attrs attrNames,
    openStore s.db = .ok ⟨s.db, attrs, attrNames⟩ ∧ CacheInv ⟨s.db, attrs, attrNames⟩ ∧
    ∀ n aid p, attrs.get n = some (aid, p) ↔
      (s.db .schema).get (asBytes n) = some (schemaRecord aid p) := by
  have hform : ∀ x ∈ (s.db .schema).entries, ∃ n aid p, x = (asBytes n, schemaRecord aid p) := by
    rintro ⟨k, b⟩ hx
    obtain ⟨n, aid, p, -, rfl, rfl, -⟩ := hschema k b (Table.get_eq_some_iff.mpr hx)
    exact ⟨n, aid, p, rfl⟩
  have hdistinct : (s.db .schema).entries.Pairwise (fun x y => x.1 ≠ y.1) := by
    refine (s.db .schema).sorted.imp ?_
    intro x y hxy he
    rw [he] at hxy
    simp at hxy
  obtain ⟨attrs, attrNames, hload, hcache, hspec⟩ := loadAttrs_spec s.db (s.db .schema).entries
    Table.empty Table.empty hform hdistinct (fun _ _ _ => rfl)
    ⟨fun _ _ h => by simp at h, fun _ _ _ h => by simp at h⟩
  refine ⟨attrs, attrNames, by rw [openStore, hload], hcache, ?_⟩
  intro n aid p
  rw [hspec, Table.get_empty, Table.get_eq_some_iff]
  exact or_iff_right nofun

/-- **Opening** reads back the attributes the schema table holds; ids that were a bijection
still resolve as they did. -/
theorem openStore_spec (hcache0 : CacheInv s) (hschema : SchemaInv s) : ∃ s', openStore s.db = .ok s' ∧
    s'.db = s.db ∧ CacheInv s' ∧ SchemaInv s' ∧
    (AttrInv s → AttrInv s' ∧ ∀ aid n, s.attrNames.get aid = some n ↔ s'.attrNames.get aid = some n) := by
  obtain ⟨attrs, attrNames, hopen, hcache, hget⟩ := openStore_caches hschema
  refine ⟨⟨s.db, attrs, attrNames⟩, hopen, rfl, hcache, ?_, ?_⟩
  · intro k b hk
    obtain ⟨n, aid, p, -, rfl, rfl, -⟩ := hschema k b hk
    exact ⟨n, aid, p, p, rfl, rfl, (hget n aid p).mpr hk⟩
  · intro hinv
    -- a reloaded attribute has the id it had in the cache
    have hold : ∀ n aid p, attrs.get n = some (aid, p) → ∃ p', s.attrs.get n = some (aid, p') := by
      intro n aid p h
      obtain ⟨n', aid', p1, p', hn, hb, hp'⟩ := hschema _ _ ((hget n aid p).mp h)
      obtain ⟨rfl, -⟩ := schemaRecord_inj hb
      rw [← asBytes_inj hn] at hp'
      exact ⟨p', hp'⟩
    have hbij : ∀ n aid p, attrs.get n = some (aid, p) → attrNames.get aid = some n := by
      intro n aid p h
      obtain ⟨m, hm⟩ := hcache.total n aid p h
      obtain ⟨q, hq⟩ := hcache.names aid m hm
      obtain ⟨p', hp'⟩ := hold n aid p h
      obtain ⟨q', hq'⟩ := hold m aid q hq
      have h1 := hinv.bij n aid p' hp'
      rw [hinv.bij m aid q' hq'] at h1
      rw [hm, h1]
    refine ⟨⟨hbij, ?_, ?_, hinv.counted⟩, ?_⟩
    · grind
    · grind
    · intro aid n
      constructor
      · intro h
        obtain ⟨p, hp⟩ := hcache0.names aid n h
        obtain ⟨p', hp'⟩ := hinv.persisted n aid p hp
        exact hbij n aid p' ((hget n aid p').mpr hp')
      · grind

end Clojurust.Datalog
