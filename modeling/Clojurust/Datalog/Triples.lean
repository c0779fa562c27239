import Clojurust.Datalog.ReadBack

/-!
# The triples in the indexes

What holds of the three indexes after any history, whatever the digest does: an operation touches all
of them alike, so they hold the same triples even where two giants share an id.

* `Store.decoded` — the triples that an index decodes to; `indexes_agree` — they are the same in `eav`
  and `ave`, and `vae` has those whose value is a reference;
* `CardinalityKept`, `cardinality_kept` — what a transaction leaves of the values of an attribute, on a
  store whose attribute ids are intact;
* `ByContent`, `values_by_content` — values of any length are read, ordered and found by their content.
-/

namespace Clojurust.Datalog

open OrderCode SortedTable StateExcept List Option

variable {digest : Bytes → Digest} {t t' : Txn} {s : Store}

/-! ## Triples -/

/-- The triples that an index decodes to. -/
def Store.decoded (s : Store) (index : Index) : Set Datom :=
  { d | ∃ k ∈ (s.db index.dbi).keys, s.decodeIndexEntry index k = .ok d }

/-- The value of a key form is read alike wherever it stands in a key, and refers to what the key form
refers to. -/
theorem decodeValue_key (db : Db) (kv : KeyVal) : ∃ r : Except StoreError StoreValue,
    (∀ rest, decodeValue db (kv.enc ++ rest) = r.map fun v => (v, kv.enc.length)) ∧
      ∀ v, r = .ok v → v.target = kv.target := by
  cases kv with
  | inline v =>
    refine ⟨.ok v, fun rest => ?_, by rintro _ ⟨⟩; rfl⟩
    simp only [decodeValue, KeyVal.enc, decode_encodeInline_append]
    rfl
  | giant kind head id =>
    simp only [decodeValue, decode_giant]
    cases hget : (db .giants).get (u64ToBeBytes id) with
    | none => exact ⟨.error _, fun _ => rfl, by rintro _ ⟨⟩⟩
    | some stored =>
      cases stored with
      | nil => exact ⟨.error _, fun _ => rfl, by rintro _ ⟨⟩⟩
      | cons tag raw =>
        by_cases hkind : kind.tag = TAG_GIANT_STR
        · simp only [if_pos hkind]
          cases fromUtf8 raw with
          | none => exact ⟨.error _, fun _ => rfl, by rintro _ ⟨⟩⟩
          | some text => exact ⟨.ok (.str text), fun _ => rfl, by rintro _ ⟨⟩; rfl⟩
        · simp only [if_neg hkind]
          exact ⟨.ok (.bytes raw), fun _ => rfl, by rintro _ ⟨⟩; rfl⟩

theorem mem_decoded (h : IndexInv s.db) {index : Index} {d : Datom} : d ∈ s.decoded index ↔
    ∃ x, s.db.Has x ∧ x.In index ∧ d.v.target = x.val.target ∧ s.decodeEav x.eavKey = .ok d := by
  have hsame : ∀ x : Entry, x.In index → (s.decodeIndexEntry index (x.key index) = .ok d ↔
      d.v.target = x.val.target ∧ s.decodeEav x.eavKey = .ok d) := by
    intro x hin
    obtain ⟨r, hr, htarget⟩ := decodeValue_key s.db x.val
    rw [decodeIndexEntry_key hin hr, decodeEav_key hr]
    refine (and_iff_right_of_imp fun hd => ?_).symm
    cases r with
    | error => cases hd
    | ok v =>
      rw [← htarget v rfl]
      simp only [Except.bind, Store.nameDatom] at hd
      split at hd <;> cases hd
      rfl
  constructor
  · rintro ⟨k, hk, hd⟩
    obtain ⟨x, hx, hin, rfl⟩ := (mem_index_keys h index k).mp hk
    exact ⟨x, hx, hin, (hsame x hin).mp hd⟩
  · rintro ⟨x, hx, hin, hd⟩
    exact ⟨x.key index, (mem_index_keys h index _).mpr ⟨x, hx, hin, rfl⟩, (hsame x hin).mpr hd⟩

/-- **The indexes agree** after every history of calls, successful or failed, and whatever the digest
does: `eav` and `ave` decode to the same triples, and `vae` to those among them whose value is a
reference. -/
theorem indexes_agree (digest : Bytes → Digest) (calls : List Call) :
    (Store.create.run digest calls).decoded .eav = (Store.create.run digest calls).decoded .ave ∧
    (Store.create.run digest calls).decoded .vae =
      { d ∈ (Store.create.run digest calls).decoded .eav | ∃ target, d.v = .ref target } := by
  have hcreate : StoreInv digest ∅ Store.create := storeInv_create
  have hinv : IndexInv (Store.create.run digest calls).db :=
    (carries_run (R := ∅) calls Store.create hcreate.index).1
  have hin : ∀ (x : Entry) {index : Index}, index ≠ .vae → x.In index := fun x _ hne h => absurd h hne
  constructor
  · ext d
    simp [mem_decoded hinv, hin]
  · ext d
    simp only [Set.mem_ofPred_eq, mem_decoded hinv]
    have href : ∀ x : Entry, d.v.target = x.val.target → (x.In .vae ↔ ∃ target, d.v = .ref target) := by
      intro x htarget
      simp only [Entry.In, true_imp_iff, ← KeyVal.target_eq_some, ← htarget]
      cases d.v <;> simp [StoreValue.target]
    constructor
    · rintro ⟨x, hx, hvae, htarget, hd⟩
      exact ⟨⟨x, hx, hin x (by decide), htarget, hd⟩, (href x htarget).mp hvae⟩
    · rintro ⟨⟨x, hx, -, htarget, hd⟩, hv⟩
      exact ⟨x, hx, (href x htarget).mpr hv, htarget, hd⟩

/-! ## Cardinality -/

/-- The operation is about the entity and the attribute. -/
def Op.Concerns (e : UInt64) (a : String) : Op → Prop
  | .add e' a' _ | .retract e' a' _ => e' = e ∧ a' = a

/-- What a transaction does to the values of an attribute. Of an attribute with one value, the last one
added is there unless it is retracted later on, and no other; what no operation is about stays; an
attribute with many values loses what is retracted only; and what is there may be added again. -/
structure CardinalityKept (many : String → Bool) (ops : List Op) (D D' : Set Datom) : Prop where
  one : ∀ pre e a v post, ops = pre ++ .add e a v :: post → many a = false →
    (∀ w, .add e a w ∉ post) → ∀ w, (⟨e, a, w⟩ ∈ D' ↔ w = v ∧ .retract e a v ∉ post)
  frame : ∀ d : Datom, (∀ op ∈ ops, ¬ op.Concerns d.e d.a) → (d ∈ D' ↔ d ∈ D)
  keeps : ∀ d ∈ D, many d.a = true → .retract d.e d.a d.v ∉ ops → d ∈ D'
  again : ∀ e a v, ops = [.add e a v] → ⟨e, a, v⟩ ∈ D →
    (many a = true ∨ ∀ w, ⟨e, a, w⟩ ∈ D → w = v) → D' = D

section Cardinality

variable {many : String → Bool} {D : Set Datom} {d : Datom}

theorem mem_foldl_of_no_add : ∀ {ops : List Op} {D : Set Datom}, (∀ w, .add d.e d.a w ∉ ops) →
    (d ∈ ops.foldl (specOp many) D ↔ d ∈ D ∧ .retract d.e d.a d.v ∉ ops)
  | [], D, _ => by simp
  | op :: ops, D, h => by
    rw [foldl_cons, mem_foldl_of_no_add fun w hw => h w (.tail _ hw), mem_cons, not_or]
    have hop : ∀ w, op ≠ .add d.e d.a w := fun w hw => h w (hw ▸ .head _)
    obtain ⟨e, a, v⟩ := d
    cases op with
    | add | retract => grind [specOp]

theorem mem_foldl_of_many (hmany : many d.a = true) : ∀ {ops : List Op} {D : Set Datom}, d ∈ D →
    .retract d.e d.a d.v ∉ ops → d ∈ ops.foldl (specOp many) D
  | [], _, hd, _ => hd
  | op :: ops, D, hd, h => by
    rw [mem_cons, not_or] at h
    rw [foldl_cons]
    refine mem_foldl_of_many hmany ?_ h.2
    cases op with
    | add =>
      refine .inr ⟨hd, fun hone hsame => ?_⟩
      rw [← hsame.2, hmany] at hone
      cases hone
    | retract =>
      refine ⟨?_, hd⟩
      rintro rfl
      exact h.1 rfl

theorem cardinalityKept_foldl (many : String → Bool) (ops : List Op) (D : Set Datom) :
    CardinalityKept many ops D (ops.foldl (specOp many) D) where
  one := by
    rintro pre e a v post rfl hone hlast w
    rw [foldl_append, foldl_cons, mem_foldl_of_no_add (d := ⟨e, a, w⟩) hlast]
    have hadded : ∀ E : Set Datom, ⟨e, a, w⟩ ∈ specOp many E (.add e a v) ↔ w = v := by
      intro E
      simp [specOp, hone]
    grind
  frame := by
    intro d hd
    rw [mem_foldl_of_no_add fun w hw => hd _ hw ⟨rfl, rfl⟩]
    exact and_iff_left fun hretract => hd _ hretract ⟨rfl, rfl⟩
  keeps _ hd hmany hretract := mem_foldl_of_many hmany hd hretract
  again := by
    rintro e a v rfl hd h
    ext ⟨e', a', w⟩
    constructor
    · rintro (hnew | hold)
      · exact hnew ▸ hd
      · exact hold.1
    · intro hw
      by_cases hsame : e' = e ∧ a' = a
      · obtain ⟨rfl, rfl⟩ := hsame
        rcases h with hmany | hone
        · exact .inr ⟨hw, fun hfalse => by rw [hmany] at hfalse; cases hfalse⟩
        · exact .inl (by rw [hone w hw])
      · exact .inr ⟨hw, fun _ => hsame⟩

/-- **A transaction enforces the cardinality** of its attributes in every state of every history whose
failed calls introduce no attribute. -/
theorem cardinality_kept {R : Set Bytes} (hinj : Set.InjOn digest R) (calls : List Call)
    (hcalls : ∀ c ∈ calls, c.HashesIn R)
    (hfail : ∀ pre c post, calls = pre ++ c :: post → ∀ err,
      ((Store.create.run digest pre).call digest c).1 = .error err →
      c.NoFresh (Store.create.run digest pre))
    (fault : Fault) (ops : List Op) (hops : ∀ op ∈ ops, op.HashesIn R) (s' : Store)
    (h : (Store.create.run digest calls).transact digest fault ops = (.ok (), s')) :
    CardinalityKept (Store.create.run digest calls).many ops (Store.create.run digest calls).datoms
      s'.datoms := by
  have hinv := storeInv_run hinj calls Store.create storeInv_create hcalls
  obtain ⟨hi, -⟩ := intact_run hinj calls Store.create storeInv_create intact_create hcalls hfail
  obtain ⟨-, hdatoms⟩ := transact_ok_intact hinj hops hinv hi h
  rw [hdatoms]
  exact cardinalityKept_foldl _ ops _

end Cardinality

/-- Two values of one attribute, the second in the place of the first. -/
def twoValues : List Op := [.add 1 "x" (.long 7), .add 1 "x" (.long 8)]

theorem cardinality_kept_twoValues : CardinalityKept Store.create.many twoValues Store.create.datoms
      (Store.create.transact zeroDigest hundredCalls twoValues).2.datoms := by
  have hresult : ∀ r : Except StoreError Unit × Store, r.1 = .ok () → r = (.ok (), r.2) := by
    rintro ⟨_, _⟩ rfl
    rfl
  have hlong : ∀ op ∈ twoValues, hashedBytes op.value = none := by decide
  refine cardinality_kept (Set.injOn_empty _) [] (by simp) (by simp) hundredCalls twoValues ?_ _
    (hresult _ (by decide +kernel))
  intro op hop raw hraw
  cases (hlong op hop).symm.trans hraw

/-- The attribute `"x"` keeps its id from a transaction that failed, and `"y"` has the same. -/
def sharedCardinality : List Call :=
  [.transact hundredCalls [.add 1 "x" oversizedVec], .transact hundredCalls [.add 1 "y" (.long 7)]]

/-- A value added for `"x"` takes the place of the one of `"y"`, and is read under `"y"`. -/
theorem cardinality_crosses_attributes : let s := Store.create.run zeroDigest sharedCardinality
    let added := s.transact zeroDigest hundredCalls [.add 1 "x" (.long 8)]
    s.search zeroDigest (some 1) none none = .ok [⟨1, "y", .long 7⟩] ∧ added.1 = .ok () ∧
      added.2.search zeroDigest (some 1) none none = .ok [⟨1, "y", .long 8⟩] := by
  refine ⟨?_, ?_, ?_⟩ <;> decide +kernel

/-! ## Giants -/

/-- Strings and byte strings of any length are kept by their content. What is stored has a key of the
value; every entry is read back from each index as the value it was stored for; keys are equal exactly if
the values are; giants of one type come after its small values and are ordered by their leading bytes; a
value is found, sliced and retracted exactly where it is; and a retraction leaves the rest readable. -/
structure ByContent (digest : Bytes → Digest) (R : Set Bytes) (s : Store) : Prop where
  stored : ∀ fault e a w s', (∀ raw, hashedBytes w = some raw → raw ∈ R) →
    s.transact digest fault [.add e a w] = (.ok (), s') → ∃ aid kv, s'.lookupAid a = some aid ∧
      s'.db.Has ⟨e, aid, kv⟩ ∧ KeyOf s'.db w kv
  read : ∀ x v, s.db.Has x → KeyOf s.db v x.val → ∀ index, x.In index →
    s.decodeIndexEntry index (x.key index) = s.nameDatom x v
  content : ∀ x, s.db.Has x → ∃ v, KeyOf s.db v x.val
  keys : ∀ v w kv kw, KeyOf s.db v kv → KeyOf s.db w kw → (kv.enc = kw.enc ↔ v = w)
  leading : ∀ v w kv kw tag raw raw', KeyOf s.db v kv → KeyOf s.db w kw →
    giantParts v = some (tag, raw) → giantParts w = some (tag, raw') → hashedBytes v = some raw →
    hashedBytes w = some raw' → raw.take GIANT_PREFIX ≠ raw'.take GIANT_PREFIX →
    compare kv.enc kw.enc = compare raw raw'
  smallFirst : ∀ v w kv kw tag raw raw', KeyOf s.db v kv → KeyOf s.db w kw →
    giantParts v = some (tag, raw) → giantParts w = some (tag, raw') → hashedBytes v = none →
    hashedBytes w = some raw' → compare kv.enc kw.enc = .lt
  searched : ∀ e a w, (giantParts w).isSome → (∀ raw, hashedBytes w = some raw → raw ∈ R) →
    (∀ x, s.db.Has x → s.Scans e a (some w) x →
      ∃ n, s.attrNames.get x.aid = some n ∧ ∀ name, a = some name → n = name) →
    Exactly s (Matches e a (some w)) (s.search digest e a (some w))
  sliced : ∀ a aid w, (giantParts w).isSome → (∀ raw, hashedBytes w = some raw → raw ∈ R) →
    s.lookupAid a = some aid → ∃ xs, (∀ x, x ∈ xs ↔ s.db.Has x ∧ x.aid = aid ∧ KeyOf s.db w x.val) ∧
      (xs.Pairwise fun x y => cmpLeading Component.cmp (x.position .ave) (y.position .ave) = .lt) ∧
      SliceSpec digest s .ave ⟨none, some a, some w, true⟩ ⟨none, some a, some w, true⟩ xs
  retracted : ∀ fault e a w s', (∀ raw, hashedBytes w = some raw → raw ∈ R) →
    s.transact digest fault [.retract e a w] = (.ok (), s') → ∃ aid, s'.lookupAid a = some aid ∧
      (∀ y, s'.db.Has y ↔ s.db.Has y ∧ ¬ (y.e = e ∧ y.aid = aid ∧ KeyOf s.db w y.val)) ∧
      ∀ v kv, KeyOf s.db v kv → KeyOf s'.db v kv

section Giants

variable {R : Set Bytes} {v w : StoreValue} {kv kw : KeyVal} {tag : UInt8} {raw raw' : Bytes}

/-- The key form of a giant. -/
theorem KeyOf.giant (h : KeyOf s.db v kv) (hparts : giantParts v = some (tag, raw))
    (hlong : hashedBytes v = some raw) : ∃ (kind : GiantKind) (head : GiantHead) (id : UInt64),
      kv = .giant kind head id ∧ tag = kind.tag ∧ head.val = raw.take GIANT_PREFIX := by
  cases kv with
  | inline u => simp [hashedBytes, h.2] at hlong
  | giant kind head id =>
    obtain ⟨-, raw1, tag1, hparts1, hhead, -⟩ := h
    cases hparts1.symm.trans hparts
    exact ⟨kind, head, id, rfl, rfl, hhead⟩

theorem compare_leading (h : KeyOf s.db v kv) (h' : KeyOf s.db w kw)
    (hv : giantParts v = some (tag, raw)) (hw : giantParts w = some (tag, raw'))
    (hlong : hashedBytes v = some raw) (hlong' : hashedBytes w = some raw')
    (hne : raw.take GIANT_PREFIX ≠ raw'.take GIANT_PREFIX) :
    compare kv.enc kw.enc = compare raw raw' := by
  obtain ⟨kind, head, id, rfl, hkind, hhead⟩ := h.giant hv hlong
  obtain ⟨kind', head', id', rfl, hkind', hhead'⟩ := h'.giant hw hlong'
  have hlen : (raw.take GIANT_PREFIX).length = (raw'.take GIANT_PREFIX).length := by
    rw [← hhead, ← hhead', head.2, head'.2]
  have hcmp : compare (raw.take GIANT_PREFIX) (raw'.take GIANT_PREFIX) ≠ .eq := by
    rwa [Ne, Std.compare_eq_iff_eq]
  simp only [KeyVal.enc]
  rw [← hkind, ← hkind', compare_cons_self, hhead, hhead', compare_append_of_length_eq _ _ hlen,
    then_of_ne_eq hcmp _ (compare (raw.drop GIANT_PREFIX) (raw'.drop GIANT_PREFIX)),
    ← compare_append_of_length_eq _ _ hlen, take_append_drop, take_append_drop]

theorem compare_small_giant (h : KeyOf s.db v kv) (h' : KeyOf s.db w kw)
    (hv : giantParts v = some (tag, raw)) (hw : giantParts w = some (tag, raw'))
    (hsmall : hashedBytes v = none) (hlong : hashedBytes w = some raw') :
    compare kv.enc kw.enc = .lt := by
  obtain ⟨kind, head, id, rfl, hkind, -⟩ := h'.giant hw hlong
  cases kv with
  | giant =>
    obtain ⟨hlarge, -⟩ := h
    simp [hashedBytes, hv, Nat.not_le.mpr hlarge] at hsmall
  | inline u =>
    obtain ⟨rfl, -⟩ := h
    obtain ⟨bs, hbs⟩ := encodeInline_eq_tag_cons u
    have htag : compare u.tag kind.tag = .lt := by
      rw [← hkind]
      cases u <;> cases hv <;> simp only [StoreValue.tag] <;> decide
    simp only [KeyVal.enc, hbs, List.compare_cons_cons, htag]
    rfl

theorem hashedIn_some (hR : ∀ raw, hashedBytes w = some raw → raw ∈ R) : HashedIn R (some w) := by
  rintro _ raw ⟨⟩
  exact hR raw

theorem partialEq_text (h : (giantParts w).isSome) : v.partialEq w = true ↔ v = w := by
  cases w <;> simp only [giantParts, isSome_some, isSome_none, Bool.false_eq_true] at h <;>
    cases v <;> simp [StoreValue.partialEq]

theorem lookupKey_unique (hinv : StoreInv digest R s) (h : LookupKey s.db w kv)
    (h' : LookupKey s.db w kw) : kv = kw := by
  rcases h with h | ⟨hnone, kind, raw, head, hparts, hhead, rfl⟩ <;>
    rcases h' with h' | ⟨hnone', kind', raw', head', hparts', hhead', rfl⟩
  · exact keyOf_key_unique hinv.giants h h'
  · exact absurd h (hnone' _)
  · exact absurd h' (hnone _)
  · obtain ⟨htag, rfl⟩ := Prod.ext_iff.mp (some.inj (hparts.symm.trans hparts'))
    obtain rfl := Subtype.ext (hhead.trans hhead'.symm)
    dsimp only at htag
    cases kind <;> cases kind' <;> first | rfl | exact absurd htag (by decide)

/-- A position with the attribute and the value is at the bound that has both. -/
theorem within_ave_iff {low high : Bound} (hlow : low.closed = true) (hhigh : high.closed = true)
    {aid : UInt32} {x : Entry} : Within low high [.attr aid, .value kv] [.attr aid, .value kv]
      (x.position .ave) ↔ x.aid = aid ∧ x.val = kv := by
  have heq : cmpLeading Component.cmp (x.position .ave) [.attr aid, .value kv] = .eq ↔
      x.aid = aid ∧ x.val = kv := by
    have hval : x.val.cmp kv = .eq ↔ x.val = kv := by
      refine ⟨KeyVal.cmp_eq, fun h => ?_⟩
      rw [h, ← isOrderCode_enc.compare_enc]
      exact Std.compare_self
    simp only [Entry.position, Index.position, map_some, toList_some, cons_append,
      nil_append, cmpLeading, Component.cmp, Ordering.then_eq_eq, Nat.compare_eq_eq,
      UInt32.toNat_inj, hval, and_true]
  simp only [Within, hlow, hhigh, cons_ne_nil, false_or, true_and, ← heq]
  cases cmpLeading Component.cmp (x.position .ave) [.attr aid, .value kv] <;> simp

section

variable (hinj : Set.InjOn digest R) (hinv : StoreInv digest R s)
include hinj hinv

theorem slice_value {a : String}
    {aid : UInt32} (hw : Storable w) (hR : ∀ raw, hashedBytes w = some raw → raw ∈ R)
    (ha : s.lookupAid a = some aid) :
    ∃ xs, (∀ x, x ∈ xs ↔ s.db.Has x ∧ x.aid = aid ∧ KeyOf s.db w x.val) ∧
      (xs.Pairwise fun x y => cmpLeading Component.cmp (x.position .ave) (y.position .ave) = .lt) ∧
      SliceSpec digest s .ave ⟨none, some a, some w, true⟩ ⟨none, some a, some w, true⟩ xs := by
  have hwf : Bound.WellFormed .ave ⟨none, some a, some w, true⟩ := by simp [Bound.WellFormed, hw]
  have hknows : s.KnowsBound ⟨none, some a, some w, true⟩ := by
    rintro _ ⟨⟩
    exact knows_iff_lookupAid.mpr ⟨aid, ha⟩
  have hin := hashedIn_some hR
  obtain ⟨lo, hi, xs, ⟨_, hlo, rfl⟩, ⟨_, hhi, rfl⟩, hxs, hspec⟩ :=
    sliceSpec_of_bounds hinj hinv hwf hwf hknows hknows hin hin
  cases hlo with | some hlo
  cases hhi with | some hhi
  obtain rfl := lookupKey_unique hinv hlo hhi
  refine ⟨xs, fun x => ?_, hxs.sorted, hspec⟩
  rw [hxs.mem]
  refine and_congr_right fun hx => ?_
  simp only [Index.position, bind_some, ha, map_some, map_none,
    toList_some, toList_none, append_nil, cons_append, nil_append]
  rw [within_ave_iff rfl rfl, lookupKey_val_iff hinv hlo hx]
  exact and_iff_right fun h => by cases h

/-- What a transaction with one operation does. -/
theorem transact_single {fault : Fault}
    {op : Op} {s' : Store} (hop : op.HashesIn R)
    (h : s.transact digest fault [op] = (.ok (), s')) :
    ∃ aid many kv, s'.lookupAid op.attr = some aid ∧ KeyOf s'.db op.value kv ∧
      GiantInv digest R s'.db ∧ (∀ v kv, KeyOf s.db v kv → KeyOf s'.db v kv) ∧
      ∀ y, s'.db.Has y ↔ op.entriesAfter aid many kv s.db.Has y := by
  obtain ⟨t, ht, rfl⟩ := Store.write_ok h
  refine wp_ok (wp_transactTxn (Q := fun t' => ∃ aid many kv, t'.toStore.lookupAid op.attr = some aid ∧
    KeyOf t'.db op.value kv ∧ GiantInv digest R t'.db ∧
    (∀ v kv, KeyOf s.db v kv → KeyOf t'.db v kv) ∧
    ∀ y, t'.db.Has y ↔ op.entriesAfter aid many kv s.db.Has y) ?_ ?_) ht
  · rintro u maxEid rfl
    refine wp_seq (wp_applyOp hinj hop hinv) ?_
    intro _ u' hspec v hv
    obtain ⟨aid, p, kv, hfound, hkey, -, heffect⟩ := hspec.effect
    have hgiants : ∀ k b, (u'.db .giants).get k = some b → (v.db .giants).get k = some b := by
      intro k b
      rw [hv.tables _ (by decide)]
      exact id
    refine ⟨aid, p.cardinalityMany, kv, ?_, hkey.mono hgiants, ?_, ?_, ?_⟩
    · unfold Store.lookupAid
      rw [hv.attr.caches.1]
      exact congrArg (Option.map Prod.fst) hfound
    · exact (hv.storeInv hspec.inv).giants
    · exact fun w kv hw => (hw.mono hspec.giants).mono hgiants
    · intro y
      rw [← heffect y]
      unfold Db.Has
      rw [hv.tables _ (by decide)]
  · intro u v huv hu
    exact huv ▸ hu

theorem transact_retract {fault : Fault}
    {e : UInt64} {a : String} {s' : Store} (hw : ∀ raw, hashedBytes w = some raw → raw ∈ R)
    (h : s.transact digest fault [.retract e a w] = (.ok (), s')) :
    ∃ aid, s'.lookupAid a = some aid ∧
      (∀ y, s'.db.Has y ↔ s.db.Has y ∧ ¬ (y.e = e ∧ y.aid = aid ∧ KeyOf s.db w y.val)) ∧
      ∀ v kv, KeyOf s.db v kv → KeyOf s'.db v kv := by
  have hop : (Op.retract e a w).HashesIn R := hw
  obtain ⟨aid, many, kv, ha, hkey, hgiants, hmono, heffect⟩ := transact_single hinj hinv hop h
  refine ⟨aid, ha, fun y => ?_, hmono⟩
  rw [heffect y, Op.entriesAfter, and_comm]
  refine and_congr_right fun hy => not_congr ?_
  rw [Entry.ext_iff]
  -- the entry has the key of the value exactly if it was stored for the value
  refine and_congr_right fun _ => and_congr_right fun _ => ⟨?_, ?_⟩
  · rintro rfl
    obtain ⟨x, hx⟩ := hinv.content y hy
    have hxw : x = w := keyOf_value_unique (hmono _ _ hx) hkey
    exact hxw ▸ hx
  · intro hval
    exact keyOf_key_unique hgiants (hmono _ _ hval) hkey

end

/-- **Values are kept by their content**, whatever their length, in every state of every history. -/
theorem values_by_content (hinj : Set.InjOn digest R) (calls : List Call)
    (hcalls : ∀ c ∈ calls, c.HashesIn R) : ByContent digest R (Store.create.run digest calls) := by
  have hinv := storeInv_run hinj calls Store.create storeInv_create hcalls
  refine ⟨?_, ?_, hinv.content, ?_, ?_, ?_, ?_, ?_, ?_⟩
  · intro fault e a w s' hR h
    have hop : (Op.add e a w).HashesIn R := hR
    obtain ⟨aid, many, kv, ha, hkey, -, -, heffect⟩ := transact_single hinj hinv hop h
    exact ⟨aid, kv, ha, (heffect _).mpr (.inl rfl), hkey⟩
  · intro x v hx hv index hin
    exact decodeIndexEntry_key (r := .ok v) hin (decodeValue_enc hv)
  · intro v w kv kw hv hw
    rw [KeyVal.enc_inj]
    constructor
    · rintro rfl
      exact keyOf_value_unique hv hw
    · rintro rfl
      exact keyOf_key_unique hinv.giants hv hw
  · intro v w kv kw tag raw raw' hv hw
    exact compare_leading hv hw
  · intro v w kv kw tag raw raw' hv hw
    exact compare_small_giant hv hw
  · intro e a w hw hR hnamed
    have hin := hashedIn_some hR
    have hsearchable : (Store.create.run digest calls).Searchable e a (some w) := by
      refine ⟨?_, hnamed, ?_⟩
      · rintro _ ⟨⟩ -
        exact .inr hw
      · rintro - _ ⟨⟩ x u - - -
        exact partialEq_text hw
    cases a with
    | none => exact (search_any_attr_iff hinj hinv e _ hin).mpr hsearchable
    | some name => exact (search_attr_iff hinj hinv e name _ hin).mpr hsearchable
  · intro a aid w hw hR ha
    exact slice_value hinj hinv (.inr hw) hR ha
  · intro fault e a w s' hR h
    exact transact_retract hinj hinv hR h

end Giants

/-- A giant that begins with a smaller byte than the other value. -/
def giantAndSmall : List Op := [.add 1 "x" (.bytes (List.replicate 401 97)), .add 2 "x" (.bytes [98])]

/-- The giant comes last all the same. -/
theorem giant_after_greater_value :
    (Store.create.run zeroDigest [.transact hundredCalls giantAndSmall]).slice zeroDigest .ave {} {} none
        false = .ok [⟨2, "x", .bytes [98]⟩, ⟨1, "x", .bytes (List.replicate 401 97)⟩] ∧
      compare (List.replicate 401 97 : Bytes) [98] = .lt := by
  constructor <;> decide +kernel

/-- The digest is injective on the one giant that is stored. -/
theorem values_by_content_giantAndSmall : ByContent zeroDigest {List.replicate 401 97}
    (Store.create.run zeroDigest [.transact hundredCalls giantAndSmall]) := by
  have hhashed : ∀ op ∈ giantAndSmall, hashedBytes op.value = none ∨
      hashedBytes op.value = some (List.replicate 401 97) := by decide +kernel
  refine values_by_content (Set.injOn_singleton _ _) _ ?_
  intro c hc
  obtain rfl := mem_singleton.mp hc
  intro op hop raw hraw
  rcases hhashed op hop with h | h
  · cases h.symm.trans hraw
  · exact (some.inj (h.symm.trans hraw)).symm

end Clojurust.Datalog
