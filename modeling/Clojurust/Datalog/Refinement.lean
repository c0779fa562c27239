import Clojurust.Datalog.Invariant
import Clojurust.Datalog.Rollback

/-!
# The store as a set of datoms

What a triple store is for, with no mention of ids, keys or indexes: a set of datoms, to which
an add or a retract is applied by name and value.

* `Store.datoms` — the datoms a store holds, `specOp` — the meaning of an operation;
* `Store.DatomOf` — the datom an entry stands for, one to one (`datomOf_unique`, `datomOf_inj`);
* `Intact` — attribute ids are a bijection and every id in use has its name;
* `datoms_of_opSpec` — on an intact store an operation does to the datoms what it means;
* `intact_run` — a history whose failed calls introduce no attribute keeps the store intact, and
  its datoms are those its successful transactions wrote (`Store.written`).
-/

namespace Clojurust.Datalog

open SortedTable StateExcept

/-- The datoms of the store. -/
def Store.datoms (s : Store) : Set Datom :=
  { d | ∃ x : Entry, s.db.Has x ∧ x.e = d.e ∧ s.attrNames.get x.aid = some d.a ∧
    KeyOf s.db d.v x.val }

/-- The datom an entry stands for. -/
def Store.DatomOf (s : Store) (x : Entry) (d : Datom) : Prop :=
  x.e = d.e ∧ s.attrNames.get x.aid = some d.a ∧ KeyOf s.db d.v x.val

/-- Does the attribute keep many values?  Attributes that are not declared keep one. -/
def Store.many (s : Store) (a : String) : Bool :=
  ((s.attrs.get a).map (fun r => r.2.cardinalityMany)).getD false

/-- The meaning of an operation. -/
def specOp (many : String → Bool) (D : Set Datom) : Op → Set Datom
  | .add e a v => { d | d = ⟨e, a, v⟩ ∨ (d ∈ D ∧ (many a = false → ¬ (d.e = e ∧ d.a = a))) }
  | .retract e a v => { d | d ≠ ⟨e, a, v⟩ ∧ d ∈ D }

/-- The attribute ids are a bijection, and every id in use has its name. -/
@[grind cases]
structure Intact (s : Store) : Prop where
  attr : AttrInv s
  used : ∀ x, s.db.Has x → ∃ n, s.attrNames.get x.aid = some n

/-! ## One operation -/

section Op

variable {digest : Bytes → Digest} {R : Set Bytes}

variable {s : Store} {op : Op} {t t' : Txn} {d : Datom} {x : Entry}

theorem names_stable {s' : Store} (hcache : CacheInv s) (hext : AttrsExt s s') (hattr : AttrInv s')
    {aid : UInt32} {n : String} (h : s.attrNames.get aid = some n) :
    s'.attrNames.get aid = some n := by
  obtain ⟨p, hp⟩ := hcache.names aid n h
  obtain ⟨p', hp'⟩ := hext n aid p hp
  exact hattr.bij n aid p' hp'

theorem OpSpec.attrsExt (h : OpSpec digest R op t t') : AttrsExt t.toStore t'.toStore := by
  intro n aid p hp
  grind

theorem OpSpec.many (h : OpSpec digest R op t t') : t'.toStore.many = t.toStore.many := by
  funext n
  unfold Store.many
  by_cases hn : n = op.attr
  · subst hn
    cases hget : t.attrs.get op.attr with
    | some r => rw [h.known r hget]
    | none =>
      -- an attribute interned on the way is not declared, and keeps one value
      grind
  · rw [h.others n hn]

theorem OpSpec.intact (h : OpSpec digest R op t t') (hcache : CacheInv t.toStore)
    (hi : Intact t.toStore) : Intact t'.toStore := by
  have hattr := h.attr hi.attr
  refine ⟨hattr, ?_⟩
  intro x hx
  obtain ⟨aid, p, kv, hfound, -, -, heff⟩ := h.effect
  rcases Op.entriesAfter_cases ((heff x).mp hx) with ⟨e, rfl⟩ | hold
  · exact ⟨_, hattr.bij _ _ _ hfound⟩
  · obtain ⟨n, hn⟩ := hi.used x hold
    exact ⟨n, names_stable hcache h.attrsExt hattr hn⟩

theorem aid_eq_iff (hcache : CacheInv s) {aid aid' : UInt32} {a a' : String}
    (h : s.attrNames.get aid = some a) (h' : s.attrNames.get aid' = some a') :
    aid = aid' ↔ a = a' := by grind

theorem mem_datoms_iff : d ∈ s.datoms ↔ ∃ x, s.db.Has x ∧ s.DatomOf x d := Iff.rfl

theorem datomOf_unique {d' : Datom} (h : s.DatomOf x d) (h' : s.DatomOf x d') : d = d' := by
  obtain ⟨he, ha, hv⟩ := h
  obtain ⟨he', ha', hv'⟩ := h'
  cases d
  cases d'
  simp only at *
  rw [ha] at ha'
  rw [← he, ← he', Option.some.inj ha', keyOf_value_unique hv hv']

theorem datomOf_inj (hinv : StoreInv digest R s) {y : Entry}
    (hx : s.DatomOf x d) (hy : s.DatomOf y d) : x = y :=
  Entry.ext (hx.1.trans hy.1.symm) ((aid_eq_iff hinv.cache hx.2.1 hy.2.1).mpr rfl)
    (keyOf_key_unique hinv.giants hx.2.2 hy.2.2)

theorem datomOf_stable {s' : Store} (hinv : StoreInv digest R s) (hi : Intact s)
    (hext : AttrsExt s s') (hattr : AttrInv s')
    (hg : ∀ k b, (s.db .giants).get k = some b → (s'.db .giants).get k = some b)
    (hx : s.db.Has x) : s'.DatomOf x d ↔ s.DatomOf x d := by
  constructor
  · rintro ⟨he, hn, hk⟩
    obtain ⟨n, hn'⟩ := hi.used x hx
    obtain ⟨w, hw⟩ := hinv.content x hx
    rw [names_stable hinv.cache hext hattr hn'] at hn
    obtain rfl := Option.some.inj hn
    obtain rfl := keyOf_value_unique (hw.mono hg) hk
    exact ⟨he, hn', hw⟩
  · rintro ⟨he, hn, hk⟩
    exact ⟨he, names_stable hinv.cache hext hattr hn, hk.mono hg⟩

/-- **An operation does to the datoms what it means.** -/
theorem datoms_of_opSpec (h : OpSpec digest R op t t')
    (hinv : StoreInv digest R t.toStore) (hi : Intact t.toStore) :
    t'.toStore.datoms = specOp t.toStore.many t.toStore.datoms op := by
  have hattr := h.attr hi.attr
  obtain ⟨aid, p, kv, hfound, hkey, hp, heff⟩ := h.effect
  have hname : t'.attrNames.get aid = some op.attr := hattr.bij _ _ _ hfound
  have hmany : p.cardinalityMany = t.toStore.many op.attr := by
    rw [hp]
    unfold Store.many
    cases t.attrs.get op.attr <;> rfl
  have hold : ∀ {x d}, t.db.Has x → (t'.toStore.DatomOf x d ↔ t.toStore.DatomOf x d) :=
    fun hx => datomOf_stable hinv hi h.attrsExt hattr h.giants hx
  -- in the new state, an entry's id is the operation's exactly if its name is
  have hid : ∀ {x d}, t'.toStore.DatomOf x d → (x.aid = aid ↔ d.a = op.attr) :=
    fun hd => aid_eq_iff h.inv.cache hd.2.1 hname
  have hmem : ∀ d : Datom, d ∈ t'.toStore.datoms ↔ ∃ x : Entry,
      op.entriesAfter aid p.cardinalityMany kv t.db.Has x ∧ t'.toStore.DatomOf x d := by
    intro d
    rw [mem_datoms_iff]
    exact exists_congr fun x => and_congr_left fun _ => heff x
  ext d
  rw [hmem]
  cases op with
  | add e a v =>
    have hnew : t'.toStore.DatomOf ⟨e, aid, kv⟩ ⟨e, a, v⟩ := ⟨rfl, hname, hkey⟩
    simp only [Op.entriesAfter, specOp, Set.mem_ofPred_eq]
    constructor
    · rintro ⟨x, rfl | ⟨hx, hcond⟩, hd⟩
      · exact .inl (datomOf_unique hd hnew)
      · refine .inr ⟨⟨x, hx, (hold hx).mp hd⟩, ?_⟩
        intro hm
        have hname' : x.aid = aid ↔ d.a = a := hid hd
        rw [← hd.1, ← hname']
        exact hcond (hmany.trans hm)
    · rintro (rfl | ⟨⟨x, hx, hd⟩, hcond⟩)
      · exact ⟨_, .inl rfl, hnew⟩
      · have hd' := (hold hx).mpr hd
        grind
  | retract e a v =>
    have hgone : t'.toStore.DatomOf ⟨e, aid, kv⟩ ⟨e, a, v⟩ := ⟨rfl, hname, hkey⟩
    constructor
    · rintro ⟨x, ⟨hne, hx⟩, hd⟩
      refine ⟨?_, x, hx, (hold hx).mp hd⟩
      rintro rfl
      exact hne (datomOf_inj h.inv hd hgone)
    · rintro ⟨hne, x, hx, hd⟩
      have hd' := (hold hx).mpr hd
      refine ⟨x, ⟨?_, hx⟩, hd'⟩
      rintro rfl
      exact hne (datomOf_unique hd' hgone)

end Op

/-! ## Transactions -/

section Calls

variable {digest : Bytes → Digest} {R : Set Bytes}

variable {s s' : Store} {t : Txn} {name : String} {p props : AttrProps}

theorem datoms_congr (hinv : StoreInv digest R s) (hi : Intact s)
    (hext : AttrsExt s s') (hattr : AttrInv s')
    (hdb : ∀ d ∉ [Dbi.schema, .metaDb], s'.db d = s.db d) : Intact s' ∧ s'.datoms = s.datoms := by
  have hhas : ∀ x, s'.db.Has x ↔ s.db.Has x := by
    intro x
    unfold Db.Has
    rw [hdb _ (by decide)]
  have hgiants : ∀ k b, (s.db .giants).get k = some b → (s'.db .giants).get k = some b := by
    rw [hdb _ (by decide)]
    exact fun _ _ hb => hb
  refine ⟨⟨hattr, ?_⟩, ?_⟩
  · intro x hx
    obtain ⟨n, hn⟩ := hi.used x ((hhas x).mp hx)
    exact ⟨n, names_stable hinv.cache hext hattr hn⟩
  · ext d
    constructor
    · rintro ⟨x, hx, hd⟩
      have hx' := (hhas x).mp hx
      exact ⟨x, hx', (datomOf_stable hinv hi hext hattr hgiants hx').mp hd⟩
    · rintro ⟨x, hx, hd⟩
      exact ⟨x, (hhas x).mpr hx, (datomOf_stable hinv hi hext hattr hgiants hx).mpr hd⟩

theorem wp_applyOps_intact (hinj : Set.InjOn digest R) : ∀ (ops : List Op) (t : Txn)
    (maxEid : UInt64), (∀ op ∈ ops, op.HashesIn R) → StoreInv digest R t.toStore →
    Intact t.toStore →
    wp (applyOps digest ops maxEid) (fun _ t' => StoreInv digest R t'.toStore ∧ Intact t'.toStore ∧
        t'.toStore.datoms = ops.foldl (specOp t.toStore.many) t.toStore.datoms)
      (fun _ _ => True) t
  | [], _, _, _, hinv, hi => ⟨hinv, hi, rfl⟩
  | op :: ops, t, maxEid, hops, hinv, hi => by
    refine wp_seq (wp_applyOp hinj (hops op (.head _)) hinv) ?_
    intro _ t1 h1
    have ih := wp_applyOps_intact hinj ops t1 (op.maxEid maxEid)
      (fun o ho => hops o (.tail _ ho)) h1.inv (h1.intact hinv.cache hi)
    refine wp_mono ih ?_
    rintro _ t2 ⟨hinv2, hi2, hd⟩
    refine ⟨hinv2, hi2, ?_⟩
    rw [hd, h1.many, datoms_of_opSpec h1 hinv hi]
    rfl

theorem MaxEidFrame.intact {t' : Txn} (h : MaxEidFrame t t') (hinv : StoreInv digest R t.toStore)
    (hi : Intact t.toStore) : Intact t'.toStore ∧ t'.toStore.datoms = t.toStore.datoms :=
  datoms_congr hinv hi h.attr.caches.attrStep.1 (h.attr.attrInv hi.attr) h.tables

/-- **A successful transaction does what its operations mean, in order.** -/
theorem transact_ok_intact (hinj : Set.InjOn digest R) {fault : Fault}
    {ops : List Op} (hops : ∀ op ∈ ops, op.HashesIn R) (hinv : StoreInv digest R s) (hi : Intact s)
    (h : s.transact digest fault ops = (.ok (), s')) :
    Intact s' ∧ s'.datoms = ops.foldl (specOp s.many) s.datoms := by
  obtain ⟨t, ht, rfl⟩ := Store.write_ok h
  have hwp : wp (transactTxn digest ops)
      (fun _ t' => Intact t'.toStore ∧ t'.toStore.datoms = ops.foldl (specOp s.many) s.datoms)
      (fun _ _ => True) ⟨s, fault.served, fault.code⟩ := by
    refine wp_transactTxn (Q := fun v => Intact v.toStore ∧
      v.toStore.datoms = ops.foldl (specOp s.many) s.datoms) ?_ ?_
    · intro u maxEid hu
      have := wp_applyOps_intact hinj ops u maxEid hops (hu ▸ hinv) (hu ▸ hi)
      refine wp_mono this ?_
      rintro _ u' ⟨hinv', hi', hd⟩ v hv
      obtain ⟨hiv, hdv⟩ := hv.intact hinv' hi'
      exact ⟨hiv, by rw [hdv, hd, hu]⟩
    · grind
  exact wp_ok hwp ht

theorem wp_setAttrTxn_known {aid : UInt32} (h : t.attrs.get name = some (aid, p)) :
    wp (setAttrTxn name props) (fun _ _ => True)
      (fun _ t' => SameCaches t t' ∨ (t'.attrs = t.attrs.put name (aid, props) ∧
        t'.attrNames = t.attrNames.put aid name)) t := by
  refine wp_seq_weaken (wp_lmdbCall t) ?_ (fun _ _ h => .inl h.2)
  intro _ t1 h1
  refine wp_seq_weaken (wp_internAttr_update (by rw [h1.2.1]; exact h)) ?_
    (fun _ _ h => .inl (h1.2.trans h))
  rintro r t2 ⟨-, h2⟩
  refine wp_weaken (wp_lmdbCall t2) (fun _ _ _ => trivial) ?_
  intro _ t3 h3
  right
  rw [h3.2.1, h3.2.2, h2.attrs, h2.attrNames, h1.2.1, h1.2.2]
  exact ⟨rfl, rfl⟩

theorem wp_setAttrTxn_bad_name (h : t.attrs.get name = none) (hname : ¬ KeyName name) :
    wp (setAttrTxn name props) (fun _ _ => True) (fun _ t' => SameCaches t t') t := by
  refine wp_seq_weaken (wp_lmdbCall t) ?_ (fun _ _ h => h.2)
  intro _ t1 h1
  refine wp_seq_weaken (wp_internAttr_fresh (by rw [h1.2.1]; exact h)) ?_ (fun _ _ h => h1.2.trans h)
  rintro r t2 ⟨n, t', -, -, hs⟩
  exact absurd ⟨hs.keyPos, hs.keyMax⟩ hname

theorem attrInv_recache (h : AttrInv s) {aid : UInt32}
    (hknown : s.attrs.get name = some (aid, p)) (hdb : s'.db = s.db)
    (ha : s'.attrs = s.attrs.put name (aid, props))
    (hn : s'.attrNames = s.attrNames.put aid name) : AttrInv s' ∧ AttrsExt s s' := by
  -- ids are unchanged: a cached attribute was cached before, under the same id
  have hold : ∀ n aid' q, s'.attrs.get n = some (aid', q) → ∃ q', s.attrs.get n = some (aid', q') := by
    intro n aid' q hq
    rw [ha, Table.get_put] at hq
    split at hq
    · grind
    · exact ⟨q, hq⟩
  have hnames : s'.attrNames = s.attrNames := by
    refine Table.ext_get ?_
    intro k
    rw [hn, Table.get_put]
    split
    · grind
    · rfl
  refine ⟨⟨?_, ?_, ?_, ?_⟩, ?_⟩
  · grind
  · grind
  · grind
  · grind
  · refine attrsExt_put ?_ ha
    intro aid' q hq
    grind

/-- The call introduces no attribute before the point where the store has to reject it. -/
def Call.NoFresh (s : Store) : Call → Prop
  | .reopen => True
  | .setAttr _ name _ => s.Knows name ∨ ¬ KeyName name
  | .transact _ ops => NoFreshAttr s ops

theorem setAttr_intact (hinv : StoreInv digest R s) (hi : Intact s) (fault : Fault)
    (name : String) (props : AttrProps)
    (hfail : ∀ err, (s.setAttr fault name props).1 = .error err → s.Knows name ∨ ¬ KeyName name) :
    Intact (s.setAttr fault name props).2 ∧ (s.setAttr fault name props).2.datoms = s.datoms := by
  cases hcall : s.setAttr fault name props with
  | mk result s' =>
    cases result with
    | ok u =>
      obtain ⟨t, ht, rfl⟩ := Store.write_ok hcall
      obtain ⟨r, hr⟩ := wp_ok (wp_setAttrTxn name props _) ht
      exact datoms_congr hinv hi hr.ext (hr.attr hinv.schema hi.attr) hr.tables
    | error err =>
      obtain ⟨t, ht, rfl⟩ := Store.write_error hcall
      have hknow := hfail err (by rw [hcall])
      cases hget : s.attrs.get name with
      | some r =>
        rcases wp_error (wp_setAttrTxn_known hget) ht with ⟨ha, hn⟩ | ⟨ha, hn⟩
        · rw [ha, hn]
          exact ⟨hi, rfl⟩
        · obtain ⟨hattr, hext⟩ : AttrInv ⟨s.db, t.attrs, t.attrNames⟩ ∧
              AttrsExt s ⟨s.db, t.attrs, t.attrNames⟩ := attrInv_recache hi.attr hget rfl ha hn
          exact datoms_congr hinv hi hext hattr fun _ _ => rfl
      | none =>
        have hname : ¬ KeyName name := by
          refine hknow.resolve_left ?_
          rintro ⟨r, hr⟩
          rw [hget] at hr
          cases hr
        obtain ⟨ha, hn⟩ := wp_error (wp_setAttrTxn_bad_name hget hname) ht
        rw [ha, hn]
        exact ⟨hi, rfl⟩

end Calls

/-! ## Histories -/

section Histories

variable (digest : Bytes → Digest)

/-- What a call means for the datoms: a successful `transact` applies its operations. -/
def Store.specCall (s : Store) (D : Set Datom) : Call → Set Datom
  | .transact fault ops =>
    match (s.transact digest fault ops).1 with
    | .ok _ => ops.foldl (specOp s.many) D
    | .error _ => D
  | _ => D

/-- The datoms a history of calls on `s` writes, by name and value. -/
def Store.written : Store → List Call → Set Datom → Set Datom
  | _, [], D => D
  | s, c :: calls, D => Store.written (s.step digest c) calls (s.specCall digest D c)

variable {digest} {R : Set Bytes}

theorem intact_call (hinj : Set.InjOn digest R) {s : Store} {c : Call} (hc : c.HashesIn R)
    (hinv : StoreInv digest R s) (hi : Intact s)
    (hfail : ∀ err, (s.call digest c).1 = .error err → c.NoFresh s) :
    Intact (s.step digest c) ∧ (s.step digest c).datoms = s.specCall digest s.datoms c := by
  cases c with
  | reopen =>
    obtain ⟨s', hopen, hdb, -, -, hattr⟩ := openStore_spec hinv.cache hinv.schema
    obtain ⟨hattr', hnames⟩ := hattr hi.attr
    have hstep : s.step digest .reopen = s' := by
      unfold Store.step Store.call
      simp only [hopen]
    rw [hstep]
    refine ⟨⟨hattr', ?_⟩, ?_⟩
    · grind
    · unfold Store.datoms
      simp only [hdb, hnames]
      rfl
  | setAttr fault name props => exact setAttr_intact hinv hi fault name props hfail
  | transact fault ops =>
    unfold Store.step Store.call Store.specCall at *
    simp only at hfail ⊢
    cases hcall : s.transact digest fault ops with
    | mk result s' =>
      cases result with
      | ok u => exact transact_ok_intact hinj hc hinv hi hcall
      | error err =>
        obtain rfl := transact_error_unchanged (hfail err (by rw [hcall])) hcall
        exact ⟨hi, rfl⟩

/-- **A history whose failed calls introduce no attribute keeps the store intact**, and the
store holds exactly the datoms that its successful transactions wrote. -/
theorem intact_run (hinj : Set.InjOn digest R) : ∀ (calls : List Call) (s : Store),
    StoreInv digest R s → Intact s → (∀ c ∈ calls, c.HashesIn R) →
    (∀ pre c post, calls = pre ++ c :: post → ∀ err,
      ((s.run digest pre).call digest c).1 = .error err → c.NoFresh (s.run digest pre)) →
    Intact (s.run digest calls) ∧ (s.run digest calls).datoms = s.written digest calls s.datoms
  | [], _, _, hi, _, _ => ⟨hi, rfl⟩
  | c :: calls, s, hinv, hi, hhash, hfail => by
    obtain ⟨hi', hd⟩ := intact_call hinj (hhash c (.head _)) hinv hi
      (hfail [] c calls rfl)
    have hinv' := (carries_call hinv.index c).2 ⟨hinj, hhash c (.head _)⟩ hinv
    obtain ⟨hrun, hwritten⟩ := intact_run hinj calls (s.step digest c) hinv' hi'
      (fun c' hc' => hhash c' (.tail _ hc'))
      (fun pre c' post hcalls => hfail (c :: pre) c' post (by rw [hcalls]; rfl))
    refine ⟨hrun, ?_⟩
    rw [hd] at hwritten
    exact hwritten

theorem intact_create : Intact Store.create where
  attr := ⟨fun _ _ _ h => (by cases h), fun _ _ _ h => (by cases h), fun _ _ _ h => (by cases h),
    Nat.le_refl 0⟩
  used := by
    intro x hx
    cases hx

theorem datoms_create : Store.create.datoms = ∅ := by
  ext d
  constructor
  · rintro ⟨x, hx, -⟩
    cases hx
  · intro h
    cases h

end Histories

end Clojurust.Datalog
