import Clojurust.Datalog.Indexes

/-!
# Giants

Values whose encoding is too long for a key are kept once in the giants table, under an id
that the table of digests finds again.

* `KeyOf db v kv` — in `db`, the key form of the value `v` is `kv`;
* `GiantInv` — the giants table, the table of digests and the id counter agree.  The digest is
  a parameter; `R` holds the byte strings that have been hashed, on which it has no collisions;
* `wp_encodeValueForKey` — encoding a value yields its key and keeps the invariant;
* `keyOf_value_unique`, `keyOf_key_unique` — keys and values determine each other;
* `decodeValue_enc` — decoding a key form returns the value, whatever follows.
-/

namespace Clojurust.Datalog

open OrderCode SortedTable StateExcept

/-! ## Key forms -/

/-- The byte string that is hashed to key the value, if it is too long to be inline. -/
def hashedBytes (v : StoreValue) : Option Bytes :=
  if (encodeInline v).length ≤ GIANT_THRESHOLD then none else (giantParts v).map Prod.snd

/-- `kv` is the key form of `v`. -/
def KeyOf (db : Db) (v : StoreValue) : KeyVal → Prop
  | .inline w => w = v ∧ (encodeInline v).length ≤ GIANT_THRESHOLD
  | .giant kind head id => GIANT_THRESHOLD < (encodeInline v).length ∧
    ∃ (raw : Bytes) (tag : UInt8), giantParts v = some (kind.tag, raw) ∧
      head.val = raw.take GIANT_PREFIX ∧ (db .giants).get (u64ToBeBytes id) = some (tag :: raw)

theorem asBytes_inj {s s' : String} (h : asBytes s = asBytes s') : s = s' := by
  have := congrArg fromUtf8 h
  rw [fromUtf8_asBytes, fromUtf8_asBytes] at this
  exact Option.some.inj this

variable {v : StoreValue} {tag : UInt8} {raw : Bytes} {w : StoreValue} {db : Db} {kv : KeyVal}
  {t : Txn} {db' : Db} {n : UInt64}

theorem giantParts_cases (h : giantParts v = some (tag, raw)) :
    (∃ s, v = .str s ∧ tag = GiantKind.str.tag ∧ raw = asBytes s) ∨
      (v = .bytes raw ∧ tag = GiantKind.bytes.tag) := by
  cases v <;> cases h
  · exact .inl ⟨_, rfl, rfl, rfl⟩
  · exact .inr ⟨rfl, rfl⟩

theorem giantParts_kind
    (h : giantParts v = some (tag, raw)) : ∃ kind : GiantKind, tag = kind.tag := by
  rcases giantParts_cases h with ⟨s, -, htag, -⟩ | ⟨-, htag⟩
  · exact ⟨.str, htag⟩
  · exact ⟨.bytes, htag⟩

theorem giantParts_inj (hv : giantParts v = some (tag, raw))
    (hw : giantParts w = some (tag, raw)) : v = w := by
  rcases giantParts_cases hv with ⟨s, rfl, rfl, rfl⟩ | ⟨rfl, rfl⟩ <;>
    rcases giantParts_cases hw with ⟨s', rfl, htag, hraw⟩ | ⟨rfl, htag⟩
  · rw [asBytes_inj hraw]
  · exact absurd htag (by decide)
  · exact absurd htag (by decide)
  · rfl

theorem escape_length_le : ∀ raw : Bytes, (escape raw).length ≤ 2 * raw.length + 2
  | [] => by simp [escape]
  | b :: bs => by
    have := escape_length_le bs
    unfold escape
    split <;> simp <;> omega

theorem giantParts_length
    (h : giantParts v = some (tag, raw)) (hlong : GIANT_THRESHOLD < (encodeInline v).length) :
    (raw.take GIANT_PREFIX).length = GIANT_PREFIX := by
  have hraw : (encodeInline v).length ≤ 2 * raw.length + 3 := by
    have := escape_length_le raw
    rcases giantParts_cases h with ⟨s, rfl, -, rfl⟩ | ⟨rfl, -⟩ <;> simp [encodeInline, pushEscaped] <;> omega
  simp only [GIANT_THRESHOLD] at hlong
  simp only [List.length_take, GIANT_PREFIX]
  omega

theorem keyOf_value_unique (hv : KeyOf db v kv) (hw : KeyOf db w kv) : v = w := by
  cases kv with
  | inline u => exact hv.1.symm.trans hw.1
  | giant =>
    obtain ⟨-, raw, tag, hpv, -, hgv⟩ := hv
    obtain ⟨-, raw', tag', hpw, -, hgw⟩ := hw
    rw [hgv] at hgw
    cases hgw
    exact giantParts_inj hpv hpw

/-! ## The invariant -/

variable (digest : Bytes → Digest) (R : Set Bytes)

@[grind cases]
structure GiantInv (db : Db) : Prop where
  stored : ∀ k b, (db .giants).get k = some b → ∃ (id : UInt64) (tag : UInt8) (raw : Bytes),
    k = u64ToBeBytes id ∧ b = tag :: raw ∧ 0 < id.toNat ∧
    id.toNat ≤ (counter db META_NEXT_GIANT).toNat ∧
    (db .giantIds).get (digest raw).1 = some k ∧ raw ∈ R
  ids : ∀ k b, (db .giantIds).get k = some b → ∃ (tag : UInt8) (raw : Bytes),
    k = (digest raw).1 ∧ (db .giants).get b = some (tag :: raw)
  counted : (counter db META_NEXT_GIANT).toNat ≤ (db .giants).size

variable {digest R}

theorem keyOf_key_unique (h : GiantInv digest R db) {kv' : KeyVal}
    (hkv : KeyOf db v kv) (hkv' : KeyOf db v kv') : kv = kv' := by
  cases kv with
  | inline w =>
    cases kv' with
    | inline w' => rw [hkv.1, hkv'.1]
    | giant => exact absurd hkv.2 (by have := hkv'.1; omega)
  | giant kind head id =>
    cases kv' with
    | inline w' => exact absurd hkv'.2 (by have := hkv.1; omega)
    | giant kind' head' id' =>
      obtain ⟨-, raw, tag, hp, hh, hg⟩ := hkv
      obtain ⟨-, raw', tag', hp', hh', hg'⟩ := hkv'
      rw [hp] at hp'
      simp only [Option.some.injEq, Prod.mk.injEq] at hp'
      obtain ⟨hkind, rfl⟩ := hp'
      have hkind : kind = kind' := by
        cases kind <;> cases kind' <;> first | rfl | exact absurd hkind (by decide)
      -- both ids are what the table of digests holds for the raw bytes
      obtain ⟨_, _, _, -, hb, -, -, hid, -⟩ := h.stored _ _ hg
      obtain ⟨_, _, _, -, hb', -, -, hid', -⟩ := h.stored _ _ hg'
      cases hb
      cases hb'
      rw [hid] at hid'
      have hid : id = id' := u64ToBeBytes_inj.mp (Option.some.inj hid')
      grind

/-- Only the giants, their digests and their counter change, and no giant is lost. -/
@[grind cases]
structure GiantFrame (t t' : Txn) : Prop where
  caches : SameCaches t t'
  tables : ∀ d ∉ [Dbi.metaDb, .giants, .giantIds], t'.db d = t.db d
  metaDb : ∀ k, k ≠ META_NEXT_GIANT → (t'.db .metaDb).get k = (t.db .metaDb).get k
  giants : ∀ k b, (t.db .giants).get k = some b → (t'.db .giants).get k = some b

theorem GiantFrame.of_untouched {t' : Txn} (h : Untouched t t') : GiantFrame t t' := by
  refine ⟨h.2, ?_, ?_, ?_⟩ <;> simp [h.1]

theorem KeyOf.mono (hg : ∀ k b, (db .giants).get k = some b → (db' .giants).get k = some b)
    (h : KeyOf db v kv) : KeyOf db' v kv := by
  cases kv with
  | inline w => exact h
  | giant =>
    obtain ⟨hlong, raw, tag, hp, hh, hget⟩ := h
    exact ⟨hlong, raw, tag, hp, hh, hg _ _ hget⟩

/-! ## Allocating ids -/

theorem toNat_succ_counter {key : Bytes} {size : Nat}
    (hcounted : (counter db key).toNat ≤ size) (hroom : size < MAP_SIZE) :
    (counter db key + 1).toNat = (counter db key).toNat + 1 := by
  rw [UInt64.toNat_add]
  simp only [MAP_SIZE] at hroom
  grind

theorem counter_of_put {t : Table Bytes Bytes} {key : Bytes}
    (h : db .metaDb = t.put key (u64ToBeBytes n)) : counter db key = n := by
  unfold counter
  rw [h, Table.get_put_self]
  exact u64FromBeBytes_toBeBytes n

theorem GiantInv.congr (h : GiantInv digest R db)
    (hg : db' .giants = db .giants) (hi : db' .giantIds = db .giantIds)
    (hc : (db' .metaDb).get META_NEXT_GIANT = (db .metaDb).get META_NEXT_GIANT) :
    GiantInv digest R db' := by
  have hcount : counter db' META_NEXT_GIANT = counter db META_NEXT_GIANT := by
    unfold counter
    rw [hc]
  refine ⟨?_, ?_, ?_⟩
  all_goals grind

/-- Recording a giant under the next id. -/
theorem giantInv_alloc (h : GiantInv digest R db)
    (hraw : raw ∈ R) (hn : n = counter db META_NEXT_GIANT + 1)
    (hroom : (db .giants).size < MAP_SIZE) (hnone : (db .giantIds).get (digest raw).1 = none)
    (hg : db' .giants = (db .giants).put (u64ToBeBytes n) (tag :: raw))
    (hi : db' .giantIds = (db .giantIds).put (digest raw).1 (u64ToBeBytes n))
    (hm : counter db' META_NEXT_GIANT = n) :
    GiantInv digest R db' ∧ (db .giants).get (u64ToBeBytes n) = none := by
  have hcounted := h.counted
  have hnat : n.toNat = (counter db META_NEXT_GIANT).toNat + 1 := by
    rw [hn, toNat_succ_counter h.counted hroom]
  -- every id handed out so far is at most the counter
  have hfresh : (db .giants).get (u64ToBeBytes n) = none := by
    cases hget : (db .giants).get (u64ToBeBytes n) with
    | none => rfl
    | some b =>
      obtain ⟨id, _, _, hk, -, -, hle, -⟩ := h.stored _ _ hget
      rw [← u64ToBeBytes_inj.mp hk] at hle
      omega
  refine ⟨⟨?_, ?_, ?_⟩, hfresh⟩
  · intro k b hget
    rw [hg, Table.get_put] at hget
    rw [hi, hm]
    split at hget
    · rename_i hk
      cases hget
      exact ⟨n, tag, raw, hk, rfl, by omega, Nat.le_refl _, by rw [hk, Table.get_put_self], hraw⟩
    · obtain ⟨id, tag', raw', hk, hb, hpos, hle, hid, hR⟩ := h.stored k b hget
      refine ⟨id, tag', raw', hk, hb, hpos, by omega, ?_, hR⟩
      rw [Table.get_put_of_ne _ _ ?_]
      · exact hid
      · grind
  · intro k b hget
    rw [hi, Table.get_put] at hget
    rw [hg]
    split at hget
    · rename_i hk
      cases hget
      exact ⟨tag, raw, hk, Table.get_put_self _ _ _⟩
    · obtain ⟨tag', raw', hk, hgiant⟩ := h.ids k b hget
      refine ⟨tag', raw', hk, ?_⟩
      rw [Table.get_put_of_ne _ _ ?_]
      · exact hgiant
      · grind
  · rw [hm, hg, Table.size_put_of_get_eq_none _ hfresh]
    omega

/-- **The id of a giant**: whether it was known or has just been allocated, the giants table
holds the raw bytes under it. The indexes stay, also where the digest has collisions. -/
theorem wp_giantId (giantTag : UInt8) (raw : Bytes) (t : Txn) :
    wp (giantId digest giantTag raw) (fun id t' => (IndexInv t.db → IndexInv t'.db) ∧
        (Set.InjOn digest R → raw ∈ R → GiantInv digest R t.db → GiantInv digest R t'.db ∧
          GiantFrame t t' ∧ ∃ tag, (t'.db .giants).get (u64ToBeBytes id) = some (tag :: raw)))
      (fun _ _ => True) t := by
  refine wp_seq_any (wp_txnGet _ _ t) ?_
  rintro found t1 ⟨hfound, h1⟩
  cases found with
  | some =>
    simp only
    split
    · refine ⟨fun hindex => h1.1 ▸ hindex, fun hinj hraw h => ?_⟩
      refine ⟨h1.1 ▸ h, GiantFrame.of_untouched h1, ?_⟩
      obtain ⟨tag, raw', hd, hget⟩ := h.ids _ _ hfound.symm
      obtain ⟨id, _, _, hk, hb, -, -, -, hR⟩ := h.stored _ _ hget
      cases hb
      obtain rfl : raw = raw' := hinj hraw hR (Subtype.ext hd)
      rw [h1.1, hk, u64FromBeBytes_toBeBytes, ← hk]
      exact ⟨tag, hget⟩
    · trivial
  | none =>
    refine wp_seq_any (wp_bumpCounter _ t1) ?_
    intro n t2 h2
    refine wp_seq_any (wp_txnPut _ _ _ t2) ?_
    intro _ t3 h3
    refine wp_seq_any (wp_txnPut _ _ _ t3) ?_
    intro _ t4 h4
    have hmeta : t4.db .metaDb = (t.db .metaDb).put META_NEXT_GIANT (u64ToBeBytes n) := by
      rw [h4.db, Db.set_of_ne _ _ (by decide), h3.db, Db.set_of_ne _ _ (by decide), h2.db,
        Db.set_self, h1.1]
    have hg : t4.db .giants = (t.db .giants).put (u64ToBeBytes n) (giantTag :: raw) := by
      rw [h4.db, Db.set_of_ne _ _ (by decide), h3.db, Db.set_self, h2.db,
        Db.set_of_ne _ _ (by decide), h1.1]
    have hids : t4.db .giantIds = (t.db .giantIds).put (digest raw).1 (u64ToBeBytes n) := by
      rw [h4.db, Db.set_self, h3.db, Db.set_of_ne _ _ (by decide), h2.db,
        Db.set_of_ne _ _ (by decide), h1.1]
    have hothers : ∀ d ∉ [Dbi.metaDb, .giants, .giantIds], t4.db d = t.db d := by
      intro d hd
      simp only [List.mem_cons, not_or] at hd
      rw [h4.db, Db.set_of_ne _ _ hd.2.2.1, h3.db, Db.set_of_ne _ _ hd.2.1, h2.db,
        Db.set_of_ne _ _ hd.1, h1.1]
    have hroom : (t.db .giants).size < MAP_SIZE := by
      have := h3.room
      rwa [h2.db, h1.1] at this
    refine ⟨fun h => h.congr hothers (by decide), ?_⟩
    intro _ hraw h
    obtain ⟨hinv, hfresh⟩ := giantInv_alloc h hraw (by rw [h2.value, h1.1]) hroom hfound.symm hg
      hids (counter_of_put hmeta)
    refine ⟨hinv, ?_, giantTag, by rw [hg, Table.get_put_self]⟩
    exact {
      caches := ((h1.2.trans h2.caches).trans h3.caches).trans h4.caches
      tables := hothers
      metaDb := fun k hk => by rw [hmeta, Table.get_put_of_ne _ _ hk]
      giants := fun k c hget => by
        rw [hg, Table.get_put_of_ne _ _ ?_]
        · exact hget
        · grind }

/-- **Encoding a value for a key** returns the key form of a value that refers to what the value
refers to; without collisions it is the one of the value in the resulting database. -/
theorem wp_encodeValueForKey (v : StoreValue) (t : Txn) : wp (encodeValueForKey digest v)
      (fun venc t' => ∃ kv : KeyVal, venc = kv.enc ∧ kv.target = v.target ∧
        (IndexInv t.db → IndexInv t'.db) ∧
        (Set.InjOn digest R → (∀ raw, hashedBytes v = some raw → raw ∈ R) → GiantInv digest R t.db →
          GiantInv digest R t'.db ∧ GiantFrame t t' ∧ KeyOf t'.db v kv))
      (fun _ _ => True) t := by
  unfold encodeValueForKey
  split
  · rename_i hshort
    refine ⟨.inline v, rfl, rfl, id, fun _ _ h => ?_⟩
    exact ⟨h, GiantFrame.of_untouched (Untouched.refl t), rfl, hshort⟩
  · rename_i hlong
    split
    · trivial
    · rename_i giantTag raw hparts
      refine wp_seq (wp_giantId (R := R) giantTag raw t) ?_
      rintro id t' ⟨hindex, hgiant⟩
      obtain ⟨kind, rfl⟩ := giantParts_kind hparts
      have hlen := giantParts_length hparts (by omega)
      refine ⟨.giant kind ⟨raw.take GIANT_PREFIX, hlen⟩ id, rfl, ?_, hindex, fun hinj hv h => ?_⟩
      · cases v <;> first | rfl | cases hparts
      · have hraw : raw ∈ R := hv raw (by simp [hashedBytes, hlong, hparts])
        obtain ⟨hinv, hframe, tag, hget⟩ := hgiant hinj hraw h
        exact ⟨hinv, hframe, by omega, raw, tag, hparts, rfl, hget⟩

/-! ## Reading -/

theorem decode_giant (kind : GiantKind) (head : GiantHead) (id : UInt64) (rest : Bytes) :
    decode ((KeyVal.giant kind head id).enc ++ rest) =
      .ok (.giant kind.tag id, (KeyVal.giant kind head id).enc.length) := by
  have hdrop : (head.val ++ (u64ToBeBytes id ++ rest)).drop GIANT_PREFIX = u64ToBeBytes id ++ rest :=
    List.drop_left' head.2
  have hlen : (KeyVal.giant kind head id).enc.length = 1 + GIANT_PREFIX + 8 := by
    simp [KeyVal.enc, head.2]
    omega
  rw [hlen]
  unfold decode
  simp only [KeyVal.enc, List.cons_append, List.append_assoc, decodeFuel]
  have hflat : decodeFlat kind.tag (head.val ++ (u64ToBeBytes id ++ rest)) =
      .ok (.giant kind.tag id, 1 + GIANT_PREFIX + 8) := by
    cases kind <;> simp only [GiantKind.tag] <;> unfold decodeFlat <;>
      simp only [hdrop, getPrefix_append (u64ToBeBytes_length id), u64FromBeBytes_toBeBytes] <;> rfl
  have htag : kind.tag ≠ TAG_VEC := by cases kind <;> decide
  rw [if_neg htag, hflat]

/-- **Decoding a key form returns its value**, whatever follows, and consumes exactly it. -/
theorem decodeValue_enc (h : KeyOf db v kv)
    (rest : Bytes) : decodeValue db (kv.enc ++ rest) = .ok (v, kv.enc.length) := by
  unfold decodeValue
  cases kv with
  | inline w =>
    obtain ⟨rfl, -⟩ := h
    simp only [KeyVal.enc, decode_encodeInline_append]
  | giant kind =>
    obtain ⟨-, raw, tag, hparts, -, hget⟩ := h
    rw [decode_giant]
    simp only [hget]
    rcases giantParts_cases hparts with ⟨s, rfl, htag, rfl⟩ | ⟨rfl, htag⟩
    · rw [htag]
      simp [GiantKind.tag, fromUtf8_asBytes]
    · have : GiantKind.bytes.tag ≠ TAG_GIANT_STR := by decide
      simp [htag, this]

end Clojurust.Datalog
