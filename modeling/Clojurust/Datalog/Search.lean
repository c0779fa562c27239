import Clojurust.Datalog.Scan

/-!
# Search and count

`search` picks an index, a key prefix and sometimes a filter for each of the eight patterns.

* `Matches` — the datoms a pattern asks for, `Exactly` — a result that lists some datoms, each
  once;
* `Store.Scans` — the entries a search reads;
* `search_any_attr_iff`, `search_attr_iff` — when a search returns exactly the datoms that match;
* `count_any_attr_iff`, `count_attr_eq` — when a count is the number of datoms a search returns.
-/

namespace Clojurust.Datalog

open SortedTable List

/-- The datom has the bound components of the pattern. -/
def Matches (e : Option UInt64) (a : Option String) (v : Option StoreValue) (d : Datom) : Prop :=
  (∀ e', e = some e' → d.e = e') ∧ (∀ name, a = some name → d.a = name) ∧
    (∀ w, v = some w → d.v = w)

/-- The result lists exactly the datoms of the store that satisfy `M`, each once. -/
def Exactly (s : Store) (M : Datom → Prop) (r : Except StoreError (List Datom)) : Prop :=
  ∃ ds, r = .ok ds ∧ ds.Nodup ∧ ∀ d, d ∈ ds ↔ d ∈ s.datoms ∧ M d

/-- The entries that a search reads: an unbound attribute leaves the value to a filter, unless
the value is a reference and nothing else is bound. -/
def Store.Scans (s : Store) (e : Option UInt64) (a : Option String) (v : Option StoreValue)
    (x : Entry) : Prop :=
  (∀ e', e = some e' → x.e = e') ∧ (∀ name, a = some name → s.lookupAid name = some x.aid) ∧
    (∀ w, v = some w → (a ≠ none ∨ (e = none ∧ ∃ t, w = .ref t)) → KeyOf s.db w x.val)

/-- Nothing stands in the way of the search. -/
@[grind cases]
structure Store.Searchable (s : Store) (e : Option UInt64) (a : Option String)
    (v : Option StoreValue) : Prop where
  /-- A bound value has a key, unless the attribute is unknown. -/
  storable : ∀ w, v = some w → (∀ name, a = some name → s.Knows name) → Storable w
  /-- The ids read resolve, to the attribute searched for. -/
  named : ∀ x, s.db.Has x → s.Scans e a v x →
    ∃ n, s.attrNames.get x.aid = some n ∧ ∀ name, a = some name → n = name
  /-- Where values are filtered, `==` tells them apart as their encodings do. -/
  filtered : a = none → ∀ w, v = some w → ∀ x u, s.db.Has x → s.Scans e a v x →
    KeyOf s.db u x.val → (u.partialEq w = true ↔ u = w)

section Exact

variable {digest : Bytes → Digest} {R : Set Bytes} {s : Store}

variable {P : Entry → Prop} {n : Nat} {r : Except StoreError (List Datom)} {M : Datom → Prop}
  {w : StoreValue} {name : String} {v : Option StoreValue} {e : Option UInt64}

theorem ScanSpec.named_of_ok
    (h : ScanSpec s P n r) {ds : List Datom} (hr : r = .ok ds) {x : Entry} (hx : s.db.Has x)
    (hP : P x) : s.Named x := by
  by_contra hnot
  obtain ⟨err, herr⟩ := h.error ⟨x, hx, hP, hnot⟩
  grind

theorem ScanSpec.congr {Q : Entry → Prop}
    (h : ScanSpec s P n r) (hPQ : ∀ x, s.db.Has x → (P x ↔ Q x)) : ScanSpec s Q n r := by
  refine ⟨?_, ?_⟩
  · intro hnamed
    obtain ⟨ds, hr, hnodup, hlen, hmem⟩ := h.ok (fun x hx hP => hnamed x hx ((hPQ x hx).mp hP))
    grind
  · rintro ⟨x, hx, hQ, hnot⟩
    exact h.error ⟨x, hx, (hPQ x hx).mpr hQ, hnot⟩

theorem keyOf_ref_iff {db : Db} {t : UInt64} {kv : KeyVal} :
    KeyOf db (.ref t) kv ↔ kv = .inline (.ref t) := by
  cases kv with
  | inline w =>
    constructor
    · rintro ⟨rfl, -⟩
      rfl
    · intro h
      cases h
      exact ⟨rfl, by simp [encodeInline, GIANT_THRESHOLD]⟩
  | giant =>
    constructor
    · rintro ⟨-, _, _, hparts, -⟩
      cases hparts
    · intro h
      cases h

theorem knows_iff_lookupAid : s.Knows name ↔ ∃ aid, s.lookupAid name = some aid := by
  unfold Store.Knows Store.lookupAid
  cases s.attrs.get name <;> simp

theorem encodeOptReadonly_error {db : Db} (hw : ¬ Storable w) :
    encodeOptReadonly digest db (some w) =
      .error (.codec "only strings and bytes can be giant") := by
  unfold encodeOptReadonly
  simp only
  rw [encodeValueReadonly_error hw]
  rfl

theorem not_exactly_error (err : StoreError) : ¬ Exactly s M (.error err) := by
  rintro ⟨ds, hr, -⟩
  cases hr

theorem searchIndex_filtered {venc : Option Bytes} (hfilter : ¬ (e = none ∧ ∃ t, w = .ref t)) :
    s.searchIndex e none (some w) venc = retainEq w (s.scanEav ((e.map u64ToBeBytes).getD [])) := by
  cases e with
  | some e => rfl
  | none =>
    cases w with
    | ref t => exact absurd ⟨rfl, t, rfl⟩ hfilter
    | _ => rfl

section

variable (hinj : Set.InjOn digest R) (hinv : StoreInv digest R s)

include hinv

theorem exists_datomOf {x : Entry} (hx : s.db.Has x) (hn : s.Named x) :
    ∃ d, s.DatomOf x d := by
  obtain ⟨v, hv⟩ := hinv.content x hx
  obtain ⟨n, hn⟩ := hn
  exact ⟨⟨x.e, n, v⟩, rfl, hn, hv⟩

/-- **A scan and a filter** are exact when every entry read stands for a datom, which is kept exactly
if it is asked for. -/
theorem exactly_filter_iff (hscan : ScanSpec s P n r)
    (keep : Datom → Bool) (hM : ∀ x d, s.DatomOf x d → M d → P x) :
    Exactly s M (r.map (List.filter keep)) ↔
      ∀ x, s.db.Has x → P x → ∃ d, s.DatomOf x d ∧ (keep d = true ↔ M d) := by
  constructor
  · rintro ⟨ds, hr, -, hmem⟩ x hx hP
    cases hscanned : r with
    | error =>
      rw [hscanned] at hr
      cases hr
    | ok =>
      rw [hscanned] at hr
      cases hr
      have hnamed : ∀ y, s.db.Has y → P y → s.Named y :=
        fun y hy hPy => hscan.named_of_ok hscanned hy hPy
      obtain ⟨all', hr', -, -, hmem'⟩ := hscan.ok hnamed
      cases hscanned.symm.trans hr'
      obtain ⟨d, hd⟩ := exists_datomOf hinv hx (hnamed x hx hP)
      have hiff := hmem d
      rw [mem_filter, hmem', mem_datoms_iff] at hiff
      refine ⟨d, hd, fun hkeep => (hiff.mp ⟨⟨x, hx, hP, hd⟩, hkeep⟩).2, fun hMd => ?_⟩
      exact (hiff.mpr ⟨⟨x, hx, hd⟩, hMd⟩).2
  · intro hall
    obtain ⟨all, hr, hnodup, -, hmem⟩ := hscan.ok (fun x hx hP => by
      obtain ⟨d, hd, -⟩ := hall x hx hP
      exact ⟨d.a, hd.2.1⟩)
    have hkept : ∀ x d, s.db.Has x → P x → s.DatomOf x d → (keep d = true ↔ M d) := by
      intro x d hx hP hd
      obtain ⟨d', hd', hiff⟩ := hall x hx hP
      rwa [datomOf_unique hd hd']
    refine ⟨all.filter keep, by rw [hr]; rfl, hnodup.filter _, fun d => ?_⟩
    rw [mem_filter, hmem, mem_datoms_iff]
    constructor
    · rintro ⟨⟨x, hx, hP, hd⟩, hkeep⟩
      exact ⟨⟨x, hx, hd⟩, (hkept x d hx hP hd).mp hkeep⟩
    · rintro ⟨⟨x, hx, hd⟩, hMd⟩
      have hP := hM x d hd hMd
      exact ⟨⟨x, hx, hP, hd⟩, (hkept x d hx hP hd).mpr hMd⟩

theorem lookupAid_of_name {aid : UInt32}
    (h : s.attrNames.get aid = some name) : s.lookupAid name = some aid := by
  obtain ⟨p, hp⟩ := hinv.cache.names _ _ h
  simp [Store.lookupAid, hp]

theorem exactly_scans_iff {a : Option String} (keep : Datom → Bool)
    (hscan : ScanSpec s (s.Scans e a v) n r) (hv : ∀ w, v = some w → Storable w)
    (hkeep : ∀ x d, s.Scans e a v x → s.DatomOf x d →
      (keep d = true ↔ (a = none → ∀ w, v = some w → d.v.partialEq w = true))) :
    Exactly s (Matches e a v) (r.map (List.filter keep)) ↔ s.Searchable e a v := by
  rw [exactly_filter_iff hinv hscan keep ?_]
  · constructor
    · intro hall
      refine ⟨fun w hw _ => hv w hw, ?_, ?_⟩
      · intro x hx hs
        obtain ⟨d, hd, hiff⟩ := hall x hx hs
        refine ⟨d.a, hd.2.1, ?_⟩
        rintro name rfl
        exact (hiff.mp ((hkeep x d hs hd).mpr nofun)).2.1 name rfl
      · rintro rfl w rfl x u hx hs hu
        obtain ⟨d, hd, hiff⟩ := hall x hx hs
        obtain rfl := keyOf_value_unique hd.2.2 hu
        rw [hkeep x d hs hd] at hiff
        simp only [true_imp_iff, Option.some.injEq, forall_eq'] at hiff
        rw [hiff]
        refine ⟨fun hmatch => hmatch.2.2 w rfl, fun heq => ⟨?_, nofun, ?_⟩⟩
        · exact fun e' he' => hd.1 ▸ hs.1 e' he'
        · exact fun w' hw' => heq.trans (Option.some.inj hw')
    · intro hs x hx hscans
      obtain ⟨n, hn, hname⟩ := hs.named x hx hscans
      obtain ⟨d, hd⟩ := exists_datomOf hinv hx ⟨n, hn⟩
      have hda : d.a = n := Option.some.inj (hd.2.1.symm.trans hn)
      have hfilter := fun ha w hw => hs.filtered ha w hw x d.v hx hscans hd.2.2
      refine ⟨d, hd, (hkeep x d hscans hd).trans ⟨fun hequal => ⟨?_, ?_, ?_⟩, ?_⟩⟩
      · exact fun e' he' => hd.1 ▸ hscans.1 e' he'
      · grind
      · intro w hw
        cases a with
        | none => exact (hfilter rfl w hw).mp (hequal rfl w hw)
        | some => exact keyOf_value_unique hd.2.2 (hscans.2.2 w hw (.inl nofun))
      · exact fun hmatch ha w hw => (hfilter ha w hw).mpr (hmatch.2.2 w hw)
  · intro x d hd hmatch
    refine ⟨?_, ?_, ?_⟩
    · intro e' he'
      rw [hd.1]
      exact hmatch.1 e' he'
    · intro name hname
      rw [← hmatch.2.1 name hname]
      exact lookupAid_of_name hinv hd.2.1
    · intro w hw _
      rw [← hmatch.2.2 w hw]
      exact hd.2.2

/-- Without a filter. -/
theorem exactly_all_iff {a : Option String}
    (hscan : ScanSpec s (s.Scans e a v) n r) (hv : ∀ w, v = some w → Storable w)
    (hall : a = none → ∀ w, v = some w → e = none ∧ ∃ t, w = .ref t) :
    Exactly s (Matches e a v) r ↔ s.Searchable e a v := by
  have hfilter : r.map (List.filter fun _ => true) = r := by cases r <;> simp [Except.map]
  rw [← hfilter]
  refine exactly_scans_iff hinv _ hscan hv fun x d hs hd => iff_of_true rfl fun ha w hw => ?_
  obtain rfl : d.v = w := keyOf_value_unique hd.2.2 (hs.2.2 w hw (.inr (hall ha w hw)))
  obtain ⟨-, t, ht⟩ := hall ha _ hw
  rw [ht]
  simp [StoreValue.partialEq]

theorem scanEav_entity_spec (hv : ∀ w, v = some w → ¬ (e = none ∧ ∃ t, w = .ref t)) :
    ScanSpec s (s.Scans e none v) (prefixCount (s.db .eav) ((e.map u64ToBeBytes).getD []))
      (s.scanEav ((e.map u64ToBeBytes).getD [])) := by
  refine (scanEav_spec hinv _).congr fun x _ => ?_
  rw [Store.Scans, and_iff_left ⟨nofun, fun w hw h => absurd (h.resolve_left (by simp)) (hv w hw)⟩]
  cases e with
  | none => simp
  | some e => simp [prefix_eavKey_e_iff, eq_comm]

theorem scanVae_ref_spec (t : UInt64) : ScanSpec s (s.Scans none none (some (.ref t)))
    (prefixCount (s.db .vae) (u64ToBeBytes t)) (s.scanVae t) :=
  (scanVae_spec hinv t).congr fun x _ => by simp [Store.Scans, keyOf_ref_iff]

/-! ## The eight patterns -/

include hinj

theorem encodeOptReadonly_spec
    (hv : ∀ w, v = some w → Storable w) (hR : HashedIn R v) :
    (v = none ∧ encodeOptReadonly digest s.db v = .ok none) ∨
    ∃ (w : StoreValue) (kv : KeyVal), v = some w ∧
      encodeOptReadonly digest s.db v = .ok (some kv.enc) ∧
      ∀ x, s.db.Has x → (x.val = kv ↔ KeyOf s.db w x.val) := by
  cases v with
  | none => exact .inl ⟨rfl, rfl⟩
  | some w =>
    obtain ⟨kv, henc, hkv⟩ := encodeValueReadonly_spec hinj hinv (hv w rfl) (fun raw => hR w raw rfl)
    exact .inr ⟨w, kv, rfl, by simp [encodeOptReadonly, henc, Except.map],
      fun x hx => lookupKey_val_iff hinv hkv hx⟩

theorem search_attr_scanSpec
    (e : Option UInt64) {aid : UInt32} (haid : s.lookupAid name = some aid)
    (hv : ∀ w, v = some w → Storable w) (hR : HashedIn R v) :
    ∃ n, ScanSpec s (s.Scans e (some name) v) n (s.search digest e (some name) v) := by
  have hopt := encodeOptReadonly_spec hinj hinv hv hR
  unfold Store.search
  simp only [haid]
  unfold Store.searchIndex Store.Scans
  rcases hopt with ⟨rfl, henc⟩ | ⟨w, kv, rfl, henc, hkv⟩
  · cases e with
    | some e =>
      refine ⟨_, (scanEav_spec hinv _).congr ?_⟩
      simp [prefix_eavKey_ea_iff, haid, eq_comm]
    | none =>
      refine ⟨_, (scanAve_spec hinv _).congr ?_⟩
      simp [prefix_aveKey_a_iff, haid]
  · cases e with
    | some e =>
      simp only [henc]
      refine ⟨_, (scanEav_spec hinv _).congr ?_⟩
      intro x hx
      have := hkv x hx
      simp [prefix_eavKey_eav_iff, haid, ← this, eq_comm]
    | none =>
      simp only [henc]
      refine ⟨_, (scanAve_spec hinv _).congr ?_⟩
      intro x hx
      have := hkv x hx
      simp [prefix_aveKey_av_iff, haid, ← this, eq_comm]

theorem search_any_attr_iff
    (e : Option UInt64) (v : Option StoreValue)
    (hR : HashedIn R v) :
    Exactly s (Matches e none v) (s.search digest e none v) ↔ s.Searchable e none v := by
  unfold Store.search
  cases v with
  | none =>
    have hindex : s.searchIndex e none none none = s.scanEav ((e.map u64ToBeBytes).getD []) := by
      cases e <;> rfl
    simp only [encodeOptReadonly, hindex]
    exact exactly_all_iff hinv (scanEav_entity_spec hinv nofun) nofun nofun
  | some w =>
    by_cases hw : Storable w
    · have hw' : ∀ w', some w = some w' → Storable w' := fun w' h => by cases h; exact hw
      rcases encodeOptReadonly_spec hinj hinv hw' hR with ⟨h, -⟩ | ⟨w', kv, -, henc, -⟩
      · cases h
      simp only [henc]
      by_cases hfilter : e = none ∧ ∃ t, w = .ref t
      · obtain ⟨rfl, t, rfl⟩ := hfilter
        exact exactly_all_iff hinv (scanVae_ref_spec hinv t) hw' fun _ w' h =>
          ⟨rfl, t, (Option.some.inj h).symm⟩
      · have hscan := scanEav_entity_spec hinv (e := e) (v := some w) (by rintro _ ⟨⟩; exact hfilter)
        rw [searchIndex_filtered hfilter]
        exact exactly_scans_iff hinv (fun d => d.v.partialEq w) hscan hw' fun _ _ _ _ => by simp
    · simp only [encodeOptReadonly_error hw]
      refine iff_of_false (not_exactly_error _) ?_
      grind

theorem search_attr_iff
    (e : Option UInt64) (name : String) (v : Option StoreValue)
    (hR : HashedIn R v) :
    Exactly s (Matches e (some name) v) (s.search digest e (some name) v) ↔
      s.Searchable e (some name) v := by
  cases haid : s.lookupAid name with
  | none =>
    have hunknown : ¬ s.Knows name := by simp [knows_iff_lookupAid, haid]
    unfold Store.search
    simp only [haid]
    refine iff_of_true ⟨[], rfl, nodup_nil, ?_⟩ ⟨?_, ?_, ?_⟩
    · intro d
      simp only [not_mem_nil, false_iff]
      rintro ⟨⟨x, -, -, hname, -⟩, -, ha, -⟩
      rw [ha name rfl] at hname
      rw [lookupAid_of_name hinv hname] at haid
      cases haid
    · grind
    · intro x _ hs
      have := hs.2.1 name rfl
      grind
    · simp
  | some aid =>
    by_cases hv : ∀ w, v = some w → Storable w
    · obtain ⟨n, hscan⟩ := search_attr_scanSpec hinj hinv e haid hv hR
      exact exactly_all_iff hinv hscan hv nofun
    · simp only [not_forall] at hv
      obtain ⟨w, rfl, hw⟩ := hv
      unfold Store.search
      simp only [haid, encodeOptReadonly_error hw]
      refine iff_of_false (not_exactly_error _) ?_
      intro hs
      refine hw (hs.storable w rfl ?_)
      intro name' h
      cases h
      exact knows_iff_lookupAid.mpr ⟨aid, haid⟩

end

/-- **What a search returns.**  In every state a history of calls reaches, a search returns
exactly the datoms that match the pattern, each once, if and only if the pattern's value has a
key, the ids it reads resolve to the attribute searched for, and (with a wildcard attribute) no
value read is `==` to the one searched for without having its encoding, or the other way round.
-/
theorem search_returns_matching_datoms_iff (hinj : Set.InjOn digest R) (calls : List Call)
    (hcalls : ∀ c ∈ calls, c.HashesIn R) (e : Option UInt64) (a : Option String)
    (v : Option StoreValue) (hv : ∀ w raw, v = some w → hashedBytes w = some raw → raw ∈ R) :
    Exactly (Store.create.run digest calls) (Matches e a v)
        ((Store.create.run digest calls).search digest e a v) ↔
      (Store.create.run digest calls).Searchable e a v := by
  have hinv := storeInv_run hinj calls Store.create storeInv_create hcalls
  cases a with
  | none => exact search_any_attr_iff hinj hinv e v hv
  | some name => exact search_attr_iff hinj hinv e name v hv

end Exact

/-- The two zeros of binary64. -/
def plusZero : F64 := ⟨0⟩
def minusZero : F64 := ⟨Word64.signBit⟩

/-- Write the datom `[1 "x" 0.0]`. -/
def zeroCalls : List Call := [.transact hundredCalls [.add 1 "x" (.double plusZero)]]

def zeroStore : Store := Store.create.run zeroDigest zeroCalls

theorem hashedBytes_plusZero : hashedBytes (.double plusZero) = none := by decide

theorem zeroCalls_hashesIn : ∀ c ∈ zeroCalls, c.HashesIn ∅ := by
  intro c hc
  obtain rfl := mem_singleton.mp hc
  intro op hop raw hraw
  obtain rfl := mem_singleton.mp hop
  cases hashedBytes_plusZero.symm.trans hraw

/-- A search for `-0.0` finds `0.0` when the attribute is a wildcard, and does not when it is
bound. -/
theorem search_minus_zero : zeroStore.search zeroDigest (some 1) none (some (.double minusZero)) =
      .ok [⟨1, "x", .double plusZero⟩] ∧
    zeroStore.search zeroDigest (some 1) (some "x") (some (.double minusZero)) = .ok [] ∧
    ¬ Exactly zeroStore (Matches (some 1) none (some (.double minusZero)))
      (zeroStore.search zeroDigest (some 1) none (some (.double minusZero))) := by
  have hsearch : zeroStore.search zeroDigest (some 1) none (some (.double minusZero)) =
      .ok [⟨1, "x", .double plusZero⟩] := by decide +kernel
  refine ⟨hsearch, by decide +kernel, ?_⟩
  rw [hsearch]
  rintro ⟨ds, hds, -, hmem⟩
  cases hds
  obtain ⟨-, -, -, hvalue⟩ := (hmem _).mp (.head _)
  exact absurd (hvalue _ rfl) (by decide)

/-- Searching the same store for what it holds. -/
theorem search_returns_matching_datoms_zero :
    Exactly zeroStore (Matches (some 1) (some "x") (some (.double plusZero)))
        (zeroStore.search zeroDigest (some 1) (some "x") (some (.double plusZero))) ↔
      zeroStore.Searchable (some 1) (some "x") (some (.double plusZero)) := by
  refine search_returns_matching_datoms_iff (R := ∅) (Set.injOn_empty _) _ zeroCalls_hashesIn _ _ _ ?_
  intro w raw hw hraw
  cases hw
  cases hashedBytes_plusZero.symm.trans hraw

/-! ## Counting -/

section Count

variable {digest : Bytes → Digest} {R : Set Bytes} {s : Store}

theorem ScanSpec.count_iff {P : Entry → Prop} {n : Nat} {r : Except StoreError (List Datom)}
    (h : ScanSpec s P n r) :
    .ok n = r.map List.length ↔ ∀ x, s.db.Has x → P x → s.Named x := by
  constructor
  · intro heq x hx hP
    by_contra hnot
    obtain ⟨err, herr⟩ := h.error ⟨x, hx, hP, hnot⟩
    rw [herr] at heq
    cases heq
  · intro hnamed
    obtain ⟨ds, hr, -, hlen, -⟩ := h.ok hnamed
    rw [hr, ← hlen]
    rfl

theorem countAll_eq (t : Table Bytes Bytes) : countAll t = prefixCount t [] := by
  unfold countAll prefixCount Table.keys
  simp

theorem named_of_lookupAid (hinv : StoreInv digest R s) {name : String} {x : Entry}
    (h : s.lookupAid name = some x.aid) : s.Named x := by
  obtain ⟨⟨aid, p⟩, hget, rfl⟩ := Option.map_eq_some_iff.mp h
  exact hinv.cache.total _ _ _ hget

theorem count_attr_eq (hinv : StoreInv digest R s) (e : Option UInt64) (name : String)
    (v : Option StoreValue) :
    s.count digest e (some name) v = (s.search digest e (some name) v).map List.length := by
  unfold Store.search Store.count
  cases haid : s.lookupAid name with
  | none => cases e <;> simp [haid] <;> rfl
  | some =>
    cases henc : encodeOptReadonly digest s.db v with
    | error => cases e <;> simp [Store.countPattern, haid, henc] <;> rfl
    | ok =>
      cases e with
      | some e =>
        simp only [Store.countPattern, haid, henc, countPrefix_eq, append_assoc]
        refine (scanEav_spec hinv _).count_iff.mpr ?_
        intro x _ hp
        obtain ⟨-, rfl⟩ := prefix_eavKey_ea_iff.mp ((prefix_append _ _).trans hp)
        exact named_of_lookupAid hinv haid
      | none =>
        simp only [Store.countPattern, haid, henc, countPrefix_eq]
        refine (scanAve_spec hinv _).count_iff.mpr ?_
        intro x _ hp
        obtain rfl := prefix_aveKey_a_iff.mp ((prefix_append _ _).trans hp)
        exact named_of_lookupAid hinv haid

theorem count_any_attr_iff (hinv : StoreInv digest R s) (e : Option UInt64)
    (v : Option StoreValue) :
    s.count digest e none v = (s.search digest e none v).map List.length ↔
      ((v = none ∨ (e = none ∧ ∃ t, v = some (.ref t))) → ∀ x, s.db.Has x → s.Scans e none v x →
        s.Named x) := by
  unfold Store.count
  by_cases hcounted : v = none ∨ (e = none ∧ ∃ t, v = some (.ref t))
  · rw [imp_iff_right hcounted]
    rcases hcounted with rfl | ⟨rfl, t, rfl⟩
    · rw [← (scanEav_entity_spec hinv (e := e) (v := none) nofun).count_iff]
      cases e with
      | some e =>
        simp only [Store.search, Store.searchIndex, encodeOptReadonly, countPrefix_eq]
        rfl
      | none =>
        simp only [Store.search, Store.searchIndex, encodeOptReadonly, countAll_eq]
        rfl
    · rw [← (scanVae_ref_spec hinv t).count_iff]
      have henc : encodeOptReadonly digest s.db (some (.ref t)) =
          .ok (some (encodeInline (.ref t))) := by
        simp [encodeOptReadonly, encodeValueReadonly, encodeInline, GIANT_THRESHOLD, Except.map]
      simp only [Store.search, Store.searchIndex, henc, countPrefix_eq]
  · refine iff_of_true ?_ (fun h => absurd h hcounted)
    cases v with
    | none => exact absurd (.inl rfl) hcounted
    | some w =>
      cases e with
      | some e => rfl
      | none =>
        cases w with
        | ref t => grind
        | _ => rfl

/-- **Count against search.**  In every state a history of calls reaches, the count of a pattern
is the number of datoms that the search returns, if and only if, for the wildcard-attribute
patterns that are counted on an index, every id read resolves. -/
theorem count_agrees_with_search_iff (hinj : Set.InjOn digest R) (calls : List Call)
    (hcalls : ∀ c ∈ calls, c.HashesIn R) (e : Option UInt64) (a : Option String)
    (v : Option StoreValue) :
    (Store.create.run digest calls).count digest e a v =
        ((Store.create.run digest calls).search digest e a v).map List.length ↔
      (a = none → (v = none ∨ (e = none ∧ ∃ t, v = some (.ref t))) →
        ∀ x, (Store.create.run digest calls).db.Has x →
          (Store.create.run digest calls).Scans e none v x →
          (Store.create.run digest calls).Named x) := by
  have hinv := storeInv_run hinj calls Store.create storeInv_create hcalls
  cases a with
  | none => exact (count_any_attr_iff hinv e v).trans (imp_iff_right rfl).symm
  | some name => exact iff_of_true (count_attr_eq hinv e name v) (fun h => by cases h)

end Count

/-- A failed transaction leaves the attribute `"x"` in the cache only; the next one writes a
datom under its id, and opening the store again forgets the id. -/
def forgottenId : List Call :=
  [.transact hundredCalls [.add 1 "x" oversizedVec], .transact hundredCalls [.add 1 "x" (.long 7)],
    .reopen]

/-- The datom is counted and cannot be read. -/
theorem count_without_search :
    (Store.create.run zeroDigest forgottenId).count zeroDigest none none none = .ok 1 ∧
    (Store.create.run zeroDigest forgottenId).search zeroDigest none none none =
      .error (.codec "unknown aid in index") := by
  constructor <;> decide +kernel

/-- Counting what `zeroStore` holds. -/
theorem count_agrees_with_search_zero : zeroStore.count zeroDigest none none none =
        (zeroStore.search zeroDigest none none none).map List.length ↔
      ((none : Option String) = none →
        ((none : Option StoreValue) = none ∨ ((none : Option UInt64) = none ∧
          ∃ t, (none : Option StoreValue) = some (.ref t))) →
        ∀ x, zeroStore.db.Has x → zeroStore.Scans none none none x → zeroStore.Named x) := by
  exact count_agrees_with_search_iff (R := ∅) (Set.injOn_empty _) _ zeroCalls_hashesIn none none none

end Clojurust.Datalog
