import Clojurust.Datalog.KeyRange
import Clojurust.Datalog.Search

/-!
# Range reads

An index orders the entries by its components; a bound gives the leading ones.

* `Component`, `Index.position` — the components of an entry or of a bound in an index;
* `Within` — the entry lies between two bounds in the order of the index;
* `boundPrefix_spec` — the key prefix of a bound encodes its components;
* `sliceSpec_of_bounds` — a slice lists the entries between its bounds in index order, from
  either end and up to a limit, and a range count counts them.
-/

namespace Clojurust.Datalog

open OrderCode SortedTable List

/-! ## Components -/

inductive Component where
  | entity (e : UInt64)
  | attr (aid : UInt32)
  | value (kv : KeyVal)

inductive ComponentKind where
  | entity | attr | value

namespace Component

def kind : Component → ComponentKind
  | .entity _ => .entity
  | .attr _ => .attr
  | .value _ => .value

/-- Only components of one kind are compared. -/
def cmp : Component → Component → Ordering
  | .entity e, .entity e' => compare e.toNat e'.toNat
  | .attr aid, .attr aid' => compare aid.toNat aid'.toNat
  | .value kv, .value kv' => kv.cmp kv'
  | _, _ => .eq

def enc : Component → Bytes
  | .entity e => u64ToBeBytes e
  | .attr aid => u32ToBeBytes aid
  | .value kv => kv.enc

end Component

open Component (enc cmp kind)

theorem isKindCode_enc : IsKindCode kind cmp enc := by
  intro a b ra rb h
  cases a <;> cases b <;> cases h
  · exact compare_u64ToBeBytes _ _ ra rb
  · exact compare_beBytes_append 4 ra rb (UInt32.toNat_lt _) (UInt32.toNat_lt _)
  · exact isOrderCode_enc _ _ ra rb

theorem Component.cmp_eq {a b : Component} (hk : a.kind = b.kind) (h : a.cmp b = .eq) : a = b := by
  cases a <;> cases b <;> cases hk
  · rw [UInt64.toNat_inj.mp (Nat.compare_eq_eq.mp h)]
  · rw [UInt32.toNat_inj.mp (Nat.compare_eq_eq.mp h)]
  · rw [KeyVal.cmp_eq h]

/-- The components that are present, in the order of the index. -/
def Index.position (index : Index) (e : Option UInt64) (aid : Option UInt32) (kv : Option KeyVal) :
    List Component :=
  match index with
  | .eav => (e.map .entity).toList ++ ((aid.map .attr).toList ++ (kv.map .value).toList)
  | .ave => (aid.map .attr).toList ++ ((kv.map .value).toList ++ (e.map .entity).toList)
  | .vae =>
    ((kv.bind KeyVal.target).map .entity).toList ++
      ((aid.map .attr).toList ++ (e.map .entity).toList)

attribute [local simp] Index.position enc kind KeyVal.target StoreValue.target

namespace Entry

/-- The entry has a key in the index: references only in `vae`. -/
def In (index : Index) (x : Entry) : Prop := index = .vae → ∃ t, x.val = .inline (.ref t)

def position (index : Index) (x : Entry) : List Component :=
  index.position (some x.e) (some x.aid) (some x.val)

def key (index : Index) (x : Entry) : Bytes := (x.position index).flatMap enc

attribute [local simp] position

theorem key_eav (x : Entry) : x.key .eav = x.eavKey := by
  simp [key, eavKey, Datalog.eavKey]

theorem key_ave (x : Entry) : x.key .ave = x.aveKey := by
  simp [key, aveKey, Datalog.aveKey]

theorem key_vae {x : Entry} {t : UInt64} (h : x.val = .inline (.ref t)) :
    x.key .vae = vaeKey t x.aid x.e := by simp [key, h, vaeKey]

end Entry

section Entries

variable {digest : Bytes → Digest} {R : Set Bytes} {s : Store}

theorem mem_index_keys (hinv : IndexInv s.db) (index : Index) (k : Bytes) :
    k ∈ (s.db index.dbi).keys ↔ ∃ x : Entry, s.db.Has x ∧ x.In index ∧ k = x.key index := by
  cases index with
  | eav =>
    constructor
    · intro hk
      obtain ⟨x, rfl⟩ := hinv.eav k hk
      exact ⟨x, hk, fun h => (by cases h), x.key_eav.symm⟩
    · rintro ⟨x, hx, -, rfl⟩
      rw [x.key_eav]
      exact hx
  | ave =>
    rw [show (s.db Index.ave.dbi).keys = (s.db .ave).keys from rfl, hinv.ave]
    constructor
    · rintro ⟨x, hx, rfl⟩
      exact ⟨x, hx, fun h => (by cases h), x.key_ave.symm⟩
    · rintro ⟨x, hx, -, rfl⟩
      exact ⟨x, hx, x.key_ave⟩
  | vae =>
    rw [show (s.db Index.vae.dbi).keys = (s.db .vae).keys from rfl, hinv.vae]
    constructor
    · rintro ⟨t, aid, e, hx, rfl⟩
      have hkey := Entry.key_vae (x := ⟨e, aid, .inline (.ref t)⟩) rfl
      exact ⟨_, hx, fun _ => ⟨t, rfl⟩, hkey.symm⟩
    · rintro ⟨x, hx, hin, rfl⟩
      obtain ⟨t, ht⟩ := hin rfl
      refine ⟨t, x.aid, x.e, ?_, Entry.key_vae ht⟩
      rw [← ht]
      exact hx

theorem decodeIndexEntry_key {index : Index} {x : Entry} {r : Except StoreError StoreValue}
    (hin : x.In index)
    (h : ∀ rest, decodeValue s.db (x.val.enc ++ rest) = r.map fun v => (v, x.val.enc.length)) :
    s.decodeIndexEntry index (x.key index) = r.bind (s.nameDatom x) := by
  cases index with
  | eav =>
    rw [x.key_eav]
    exact decodeEav_key h
  | ave => exact decodeAve_key h
  | vae =>
    obtain ⟨t, ht⟩ := hin rfl
    obtain ⟨e, aid, val⟩ := x
    cases ht
    have hread := h []
    simp only [decodeValue, KeyVal.enc, decode_encodeInline_append] at hread
    cases r <;> cases hread
    exact decodeVae_key t e aid

theorem mapOk_decodeIndexEntry (hinv : StoreInv digest R s) (index : Index) :
    ∀ {xs : List Entry}, (∀ x ∈ xs, s.db.Has x ∧ x.In index ∧ s.Named x) →
      ∃ ds, mapOk (s.decodeIndexEntry index) (xs.map (Entry.key index)) = .ok ds ∧
        List.Forall₂ s.DatomOf xs ds
  | [], _ => ⟨[], rfl, .nil⟩
  | x :: xs, h => by
    obtain ⟨hx, hin, hname⟩ := h x (.head _)
    obtain ⟨d, hd⟩ := exists_datomOf hinv hx hname
    obtain ⟨ds, hds, hall⟩ := mapOk_decodeIndexEntry hinv index
      (fun y hy => h y (.tail _ hy))
    refine ⟨d :: ds, mapOk_cons_ok ?_ hds, .cons hd hall⟩
    rw [decodeIndexEntry_key (r := .ok d.v) hin (decodeValue_enc hd.2.2)]
    exact (nameDatom_ok_iff hd.2.2).mpr hd

end Entries

/-! ## Bounds -/

/-- The components of the bound are the leading ones of the index, and its value has a key. -/
def Bound.WellFormed (index : Index) (b : Bound) : Prop :=
  match index with
  | .eav => (b.v ≠ none → b.a ≠ none) ∧ (b.a ≠ none → b.e ≠ none) ∧ ∀ w, b.v = some w → Storable w
  | .ave => (b.e ≠ none → b.v ≠ none) ∧ (b.v ≠ none → b.a ≠ none) ∧ ∀ w, b.v = some w → Storable w
  | .vae => (b.e ≠ none → b.a ≠ none) ∧ (b.a ≠ none → b.v ≠ none) ∧
    ∀ w, b.v = some w → ∃ t, w = .ref t

/-- The store knows the attribute of the bound, if it has one. -/
def Store.KnowsBound (s : Store) (b : Bound) : Prop := ∀ name, b.a = some name → s.Knows name

/-- `cs` are the components of the bound in the index. -/
def Store.BoundAt (s : Store) (index : Index) (b : Bound) (cs : List Component) : Prop :=
  ∃ kv, Option.Rel (LookupKey s.db) b.v kv ∧ cs = index.position b.e (b.a.bind s.lookupAid) kv

section Bounds

variable {digest : Bytes → Digest} {R : Set Bytes} {s : Store}

theorem lookupKey_ref_iff {db : Db} {t : UInt64} {kv : KeyVal} :
    LookupKey db (.ref t) kv ↔ kv = .inline (.ref t) := by
  constructor
  · rintro (h | ⟨h, -⟩)
    · exact keyOf_ref_iff.mp h
    · exact absurd (keyOf_ref_iff.mpr rfl) (h (.inline (.ref t)))
  · rintro rfl
    exact .inl (keyOf_ref_iff.mpr rfl)

variable {b : Bound} {index : Index}

theorem lookupAid_of_knows (h : s.KnowsBound b) {name : String}
    (ha : b.a = some name) : ∃ aid, s.lookupAid name = some aid :=
  knows_iff_lookupAid.mp (h name ha)

attribute [local simp] Store.boundPrefix

/-- The key prefix of the bound encodes its components. -/
def Store.Prefixed (digest : Bytes → Digest) (s : Store) (index : Index) (b : Bound) : Prop :=
  ∃ cs, s.BoundAt index b cs ∧ s.boundPrefix digest index b = .ok (some (cs.flatMap enc))

theorem boundPrefix_spec (hinj : Set.InjOn digest R) (hinv : StoreInv digest R s)
    (hwf : b.WellFormed index) (hknows : s.KnowsBound b) (hR : HashedIn R b.v) :
    s.Prefixed digest index b := by
  obtain ⟨e, a, v, closed⟩ := b
  have haid : ∀ name, a = some name → ∃ aid, s.lookupAid name = some aid :=
    fun _ => lookupAid_of_knows hknows
  cases index with
  | eav | ave =>
    obtain ⟨hlast, hnext, hstore⟩ := hwf
    cases v with
    | none =>
      refine ⟨_, ⟨none, .none, rfl⟩, ?_⟩
      cases a with
      | none => cases e <;> simp_all
      | some name =>
        obtain ⟨aid, haid⟩ := haid name rfl
        cases e <;> simp_all [encodeOptReadonly]
    | some w =>
      obtain ⟨kv, henc, hkv⟩ := encodeValueReadonly_spec hinj hinv (hstore w rfl)
        (fun raw => hR w raw rfl)
      refine ⟨_, ⟨some kv, .some hkv, rfl⟩, ?_⟩
      cases a with
      | none => simp_all
      | some name =>
        obtain ⟨aid, haid⟩ := haid name rfl
        cases e <;> simp_all [encodeOptReadonly, Except.map]
  | vae =>
    obtain ⟨hea, hav, href⟩ := hwf
    cases v with
    | none =>
      refine ⟨[], ⟨none, .none, ?_⟩, ?_⟩
      all_goals cases a <;> cases e <;> simp_all
    | some w =>
      obtain ⟨t, rfl⟩ := href w rfl
      refine ⟨_, ⟨some (.inline (.ref t)), .some (lookupKey_ref_iff.mpr rfl), rfl⟩, ?_⟩
      cases a with
      | none => cases e <;> simp_all
      | some name =>
        obtain ⟨aid, haid⟩ := haid name rfl
        cases e <;> simp [haid]

theorem boundPrefix_unknown (hwf : b.WellFormed index)
    (hknows : ¬ s.KnowsBound b) : s.boundPrefix digest index b = .ok none := by
  obtain ⟨e, a, v, closed⟩ := b
  unfold Store.KnowsBound at hknows
  simp only [not_forall] at hknows
  obtain ⟨name, rfl, hname⟩ := hknows
  have haid : s.lookupAid name = none := by
    cases h : s.lookupAid name with
    | none => rfl
    | some aid => exact absurd (knows_iff_lookupAid.mpr ⟨aid, h⟩) hname
  cases index with
  | eav =>
    cases e with
    | none => exact absurd rfl (hwf.2.1 (by simp))
    | some e => simp [haid]
  | ave => simp [haid]
  | vae =>
    cases v with
    | none => exact absurd rfl (hwf.2.1 (by simp))
    | some w =>
      obtain ⟨t, rfl⟩ := hwf.2.2 w rfl
      simp [haid]

attribute [local simp] Bound.WellFormed

variable (digest) in
theorem boundPrefix_malformed (hwf : ¬ b.WellFormed index)
    (hknows : s.KnowsBound b) : ∃ err, s.boundPrefix digest index b = .error err := by
  obtain ⟨e, a, v, closed⟩ := b
  have hvalue : ∀ w, ¬ Storable w → encodeValueReadonly digest s.db w =
      .error (.codec "only strings and bytes can be giant") := fun w hw => encodeValueReadonly_error hw
  cases index with
  | eav =>
    cases e <;> cases a <;> cases v <;> simp at hwf ⊢
    rename_i e name w
    obtain ⟨aid, haid⟩ := lookupAid_of_knows hknows rfl
    simp [haid, encodeOptReadonly, hvalue w hwf, Except.map]
  | ave =>
    cases a with
    | none => cases e <;> cases v <;> simp at hwf ⊢
    | some =>
      obtain ⟨aid, haid⟩ := lookupAid_of_knows hknows rfl
      cases e <;> cases v <;> simp [haid] at hwf ⊢
      · simp [hvalue _ hwf]
      · simp [hvalue _ hwf]
  | vae =>
    cases v with
    | none => cases e <;> cases a <;> simp at hwf ⊢
    | some w =>
      cases w with
      | ref t => cases e <;> cases a <;> simp at hwf ⊢
      | _ => exact ⟨_, rfl⟩

theorem boundAt_kinds (hwf : b.WellFormed index)
    (hknows : s.KnowsBound b) {cs : List Component} (h : s.BoundAt index b cs) {x : Entry}
    (hin : x.In index) : cs.map kind <+: (x.position index).map kind := by
  obtain ⟨e, a, v, closed⟩ := b
  obtain ⟨kv, hkv, rfl⟩ := h
  -- the shape of a position depends on which components are there, and all resolve
  obtain ⟨aid, haid, hnone⟩ : ∃ aid, a.bind s.lookupAid = aid ∧ (aid = none → a = none) := by
    refine ⟨_, rfl, ?_⟩
    cases a with
    | none => exact fun _ => rfl
    | some =>
      obtain ⟨aid, haid⟩ := lookupAid_of_knows hknows rfl
      simp [haid]
  cases index with
  | eav | ave =>
    obtain ⟨hlast, hnext, -⟩ := hwf
    cases hkv <;> cases e <;> cases a <;> cases aid <;> simp_all [Entry.position]
  | vae =>
    obtain ⟨hea, hav, href⟩ := hwf
    obtain ⟨t, ht⟩ := hin rfl
    cases hkv with
    | none => cases e <;> cases a <;> cases aid <;> simp_all [Entry.position]
    | @some w kv hkv =>
      obtain ⟨t', rfl⟩ := href w rfl
      obtain rfl := lookupKey_ref_iff.mp hkv
      cases e <;> cases a <;> cases aid <;> simp_all [Entry.position]

end Bounds

/-! ## Slices -/

/-- The position lies between the bounds with the components `lo` and `hi`. -/
def Within (low high : Bound) (lo hi p : List Component) : Prop :=
  (lo = [] ∨ cmpLeading cmp p lo = .gt ∨
    (low.closed = true ∧ cmpLeading cmp p lo = .eq)) ∧
  (hi = [] ∨ cmpLeading cmp p hi = .lt ∨
    (high.closed = true ∧ cmpLeading cmp p hi = .eq))

/-- `xs` are the entries of the index between the bounds, in ascending order. -/
@[grind cases]
structure Store.SliceOf (s : Store) (index : Index) (low high : Bound) (lo hi : List Component)
    (xs : List Entry) : Prop where
  sorted : xs.Pairwise (fun x y =>
    cmpLeading cmp (x.position index) (y.position index) = .lt)
  mem : ∀ x, x ∈ xs ↔ s.db.Has x ∧ x.In index ∧ Within low high lo hi (x.position index)

section Positions

variable {p cs : List Component}

theorem flatMap_enc_eq_nil : cs.flatMap enc = [] ↔ cs = [] := by
  cases cs with
  | nil => simp
  | cons c cs =>
    have hne : c.enc ≠ [] := by
      intro h
      have := congrArg List.length h
      cases c with
      | entity | attr => simp at this
      | value kv =>
        cases kv with
        | inline v =>
          obtain ⟨bs, hbs⟩ := encodeInline_eq_tag_cons v
          simp [KeyVal.enc, hbs] at this
        | giant => simp [KeyVal.enc] at this
    simp [hne, -enc]

theorem upTo_flatMap_iff (h : cs.map kind <+: p.map kind) : UpTo (cs.flatMap enc) (p.flatMap enc) ↔
      cmpLeading cmp p cs ≠ .gt := by
  unfold UpTo
  rw [isKindCode_enc.compare_lt_iff h, isKindCode_enc.prefix_iff (fun _ _ => Component.cmp_eq) h]
  cases cmpLeading cmp p cs <;> simp

theorem atLeast_flatMap_iff (h : cs.map kind <+: p.map kind) (closed : Bool) :
    AtLeast (cs.flatMap enc) closed (p.flatMap enc) ↔ (cs = [] ∨ cmpLeading cmp p cs = .gt ∨
        (closed = true ∧ cmpLeading cmp p cs = .eq)) := by
  unfold AtLeast
  rw [flatMap_enc_eq_nil, upTo_flatMap_iff h, ne_eq, isKindCode_enc.compare_lt_iff h]
  cases closed <;> cases cmpLeading cmp p cs <;> simp

theorem atMost_flatMap_iff (h : cs.map kind <+: p.map kind) (closed : Bool) :
    AtMost (cs.flatMap enc) closed (p.flatMap enc) ↔ (cs = [] ∨ cmpLeading cmp p cs = .lt ∨
        (closed = true ∧ cmpLeading cmp p cs = .eq)) := by
  unfold AtMost
  rw [flatMap_enc_eq_nil, upTo_flatMap_iff h, isKindCode_enc.compare_lt_iff h]
  cases closed <;> cases cmpLeading cmp p cs <;> simp

theorem position_kinds {index : Index} {x y : Entry} (hx : x.In index) (hy : y.In index) :
    (x.position index).map kind = (y.position index).map kind := by
  cases index with
  | eav | ave => rfl
  | vae =>
    obtain ⟨t, ht⟩ := hx rfl
    obtain ⟨t', ht'⟩ := hy rfl
    simp [Entry.position, ht, ht']

theorem key_inj {index : Index} {x y : Entry} (hx : x.In index) (hy : y.In index)
    (h : x.key index = y.key index) : x = y := by
  cases index with
  | eav =>
    rw [x.key_eav, y.key_eav] at h
    exact Entry.eavKey_inj.mp h
  | ave => exact Entry.aveKey_inj.mp h
  | vae =>
    obtain ⟨t, ht⟩ := hx rfl
    obtain ⟨t', ht'⟩ := hy rfl
    rw [Entry.key_vae ht, Entry.key_vae ht'] at h
    obtain ⟨rfl, haid, he⟩ := vaeKey_inj.mp h
    exact Entry.ext he haid (ht.trans ht'.symm)

theorem exists_entries {key : Entry → Bytes} {P : Entry → Prop} : ∀ {keys : List Bytes},
    (∀ k ∈ keys, ∃ x, P x ∧ k = key x) → ∃ xs : List Entry, keys = xs.map key ∧ ∀ x ∈ xs, P x
  | [], _ => ⟨[], rfl, by simp⟩
  | k :: keys, h => by
    obtain ⟨x, hx, rfl⟩ := h k (.head _)
    obtain ⟨xs, rfl, hxs⟩ := exists_entries (fun k' hk' => h k' (.tail _ hk'))
    exact ⟨x :: xs, rfl, by simpa [hx] using hxs⟩

end Positions

section Slices

variable {digest : Bytes → Digest} {R : Set Bytes} {s : Store} {index : Index} {low high : Bound}

theorem rangeKeys_entries (hinv : StoreInv digest R s) {lo hi : List Component}
    (hlow : low.WellFormed index) (hhigh : high.WellFormed index) (hkl : s.KnowsBound low)
    (hkh : s.KnowsBound high) (hlo : s.BoundAt index low lo) (hhi : s.BoundAt index high hi) :
    ∃ xs, s.SliceOf index low high lo hi xs ∧
      rangeKeys (s.db index.dbi) (rangeOfPrefixes (lo.flatMap enc) low.closed
        (hi.flatMap enc) high.closed) = xs.map (Entry.key index) := by
  have hmem : ∀ k, k ∈ rangeKeys (s.db index.dbi) (rangeOfPrefixes (lo.flatMap enc)
      low.closed (hi.flatMap enc) high.closed) ↔ ∃ x : Entry, (s.db.Has x ∧ x.In index ∧
        Within low high lo hi (x.position index)) ∧ k = x.key index := by
    intro k
    rw [mem_rangeKeys_iff, mem_index_keys hinv.index]
    have hbounds := fun (x : Entry) (hin : x.In index) =>
      and_congr (atLeast_flatMap_iff (boundAt_kinds hlow hkl hlo hin) low.closed)
        (atMost_flatMap_iff (boundAt_kinds hhigh hkh hhi hin) high.closed)
    constructor
    · rintro ⟨⟨x, hx, hin, rfl⟩, hbetween⟩
      exact ⟨x, ⟨hx, hin, (hbounds x hin).mp hbetween⟩, rfl⟩
    · rintro ⟨x, ⟨hx, hin, hbetween⟩, rfl⟩
      exact ⟨⟨x, hx, hin, rfl⟩, (hbounds x hin).mpr hbetween⟩
  obtain ⟨xs, hkeys, hxs⟩ := exists_entries (fun k hk => (hmem k).mp hk)
  refine ⟨xs, ⟨?_, ?_⟩, hkeys⟩
  · have hsorted : (xs.map (Entry.key index)).Pairwise (fun k k' => compare k k' = .lt) := by
      rw [← hkeys]
      cases rangeOfPrefixes (lo.flatMap enc) low.closed (hi.flatMap enc)
          high.closed with
      | none => exact .nil
      | some => exact (s.db index.dbi).keys_sorted.filter _
    refine (pairwise_map.mp hsorted).imp_of_mem ?_
    intro x y hx hy hlt
    rw [← isKindCode_enc.compare_tuple (position_kinds (hxs x hx).2.1 (hxs y hy).2.1)]
    exact hlt
  · intro x
    refine ⟨hxs x, ?_⟩
    intro hx
    have hk := (hmem (x.key index)).mpr ⟨x, hx, rfl⟩
    rw [hkeys] at hk
    obtain ⟨y, hy, hyx⟩ := mem_map.mp hk
    rw [← key_inj (hxs y hy).2.1 hx.2.1 hyx]
    exact hy

theorem slice_of_range {range : Option (Bytes × Option Bytes)}
    (h : s.resolveRange digest index low high = .ok range) (limit : Option Nat) (reverse : Bool) :
    s.slice digest index low high limit reverse = mapOk (s.decodeIndexEntry index)
        (takeLimit limit (directed reverse (rangeKeys (s.db index.dbi) range))) := by
  unfold Store.slice
  by_cases hlimit : limit = some 0
  · subst hlimit
    simp [takeLimit, mapOk]
  · rw [if_neg hlimit]
    simp only [h]
    cases range with
    | none => cases limit <;> cases reverse <;> simp [rangeKeys, directed, takeLimit, mapOk]
    | some => simp only [sliceKeys_eq]

theorem countRange_of_range {lp hp : Bytes} {lc hc : Bool}
    (h : s.resolveRange digest index low high = .ok (rangeOfPrefixes lp lc hp hc)) :
    s.countRange digest index low high =
      .ok (rangeKeys (s.db index.dbi) (rangeOfPrefixes lp lc hp hc)).length := by
  unfold Store.countRange
  simp only [h]
  cases hr : rangeOfPrefixes lp lc hp hc with
  | none => rfl
  | some ends =>
    obtain ⟨lo, hi⟩ := ends
    simp only
    rw [endRank_sub]
    rintro hi' rfl
    unfold rangeOfPrefixes at hr
    grind

/-- What a slice and a range count do between two well-formed bounds. -/
@[grind cases]
structure SliceSpec (digest : Bytes → Digest) (s : Store) (index : Index) (low high : Bound)
    (xs : List Entry) : Prop where
  count : s.countRange digest index low high = .ok xs.length
  slice : (∀ x ∈ xs, s.Named x) → ∀ limit reverse, ∃ ds,
    s.slice digest index low high limit reverse = .ok ds ∧
      List.Forall₂ s.DatomOf (takeLimit limit (directed reverse xs)) ds

theorem mem_takeLimit_directed {α : Type} {limit : Option Nat} {reverse : Bool} {xs : List α}
    {x : α} (h : x ∈ takeLimit limit (directed reverse xs)) : x ∈ xs := by
  have hmem : x ∈ directed reverse xs := by
    cases limit with
    | none => exact h
    | some n => exact mem_of_mem_take h
  cases reverse with
  | false => exact hmem
  | true => exact mem_reverse.mp hmem

theorem map_takeLimit_directed {α β : Type} (f : α → β) (limit : Option Nat) (reverse : Bool)
    (xs : List α) : takeLimit limit (directed reverse (xs.map f)) =
      (takeLimit limit (directed reverse xs)).map f := by
  cases limit <;> cases reverse <;> simp [takeLimit, directed, map_take]

/-- **Slices between bounds that resolve.** -/
theorem sliceSpec_of_bounds (hinj : Set.InjOn digest R) (hinv : StoreInv digest R s)
    (hlow : low.WellFormed index) (hhigh : high.WellFormed index) (hkl : s.KnowsBound low)
    (hkh : s.KnowsBound high)
    (hRl : HashedIn R low.v) (hRh : HashedIn R high.v) :
    ∃ lo hi xs, s.BoundAt index low lo ∧ s.BoundAt index high hi ∧
      s.SliceOf index low high lo hi xs ∧ SliceSpec digest s index low high xs := by
  obtain ⟨lo, hlo, hlp⟩ := boundPrefix_spec hinj hinv hlow hkl hRl
  obtain ⟨hi, hhi, hhp⟩ := boundPrefix_spec hinj hinv hhigh hkh hRh
  obtain ⟨xs, hxs, hkeys⟩ := rangeKeys_entries hinv hlow hhigh hkl hkh hlo hhi
  have hresolve : s.resolveRange digest index low high = .ok (rangeOfPrefixes
      (lo.flatMap enc) low.closed (hi.flatMap enc) high.closed) := by
    unfold Store.resolveRange
    simp only [hlp, hhp]
  refine ⟨lo, hi, xs, hlo, hhi, hxs, ?_, ?_⟩
  · rw [countRange_of_range hresolve, hkeys, length_map]
  · intro hnamed limit reverse
    rw [slice_of_range hresolve, hkeys, map_takeLimit_directed]
    refine mapOk_decodeIndexEntry hinv index ?_
    intro x hx
    have hx := mem_takeLimit_directed hx
    grind

/-- What a slice and a range count return, for every pair of bounds. -/
structure RangeScan (digest : Bytes → Digest) (s : Store) (index : Index) (low high : Bound) :
    Prop where
  /-- The entries between the bounds, in index order. -/
  between : low.WellFormed index → high.WellFormed index → s.KnowsBound low → s.KnowsBound high →
    ∃ lo hi xs, s.BoundAt index low lo ∧ s.BoundAt index high hi ∧
      s.SliceOf index low high lo hi xs ∧ SliceSpec digest s index low high xs
  /-- Nothing, when a bound names an attribute the store does not know. -/
  unknown : low.WellFormed index → high.WellFormed index →
    ¬ (s.KnowsBound low ∧ s.KnowsBound high) →
    s.countRange digest index low high = .ok 0 ∧
      ∀ limit reverse, s.slice digest index low high limit reverse = .ok []
  /-- An error, when the components of a bound are not the leading ones of the index or its
  value has no key. -/
  refused : s.KnowsBound low → s.KnowsBound high → ¬ (low.WellFormed index ∧ high.WellFormed index) →
    (∃ err, s.countRange digest index low high = .error err) ∧
      ∀ limit reverse, limit ≠ some 0 → ∃ err, s.slice digest index low high limit reverse = .error err

/-- **Slices are ordered range scans** in every state that a history of calls reaches. -/
theorem slice_is_ordered_range_scan (hinj : Set.InjOn digest R) (calls : List Call)
    (hcalls : ∀ c ∈ calls, c.HashesIn R) (index : Index) (low high : Bound)
    (hlow : ∀ w raw, low.v = some w → hashedBytes w = some raw → raw ∈ R)
    (hhigh : ∀ w raw, high.v = some w → hashedBytes w = some raw → raw ∈ R) :
    RangeScan digest (Store.create.run digest calls) index low high := by
  have hinv := storeInv_run hinj calls Store.create storeInv_create hcalls
  refine ⟨?_, ?_, ?_⟩
  · intro hwl hwh hkl hkh
    exact sliceSpec_of_bounds hinj hinv hwl hwh hkl hkh hlow hhigh
  · intro hwl hwh hunknown
    have hresolve : (Store.create.run digest calls).resolveRange digest index low high = .ok none := by
      unfold Store.resolveRange
      by_cases hkl : (Store.create.run digest calls).KnowsBound low
      · obtain ⟨lo, -, hlp⟩ := boundPrefix_spec hinj hinv hwl hkl hlow
        simp only [hlp, boundPrefix_unknown hwh (fun h => hunknown ⟨hkl, h⟩)]
      · simp only [boundPrefix_unknown hwl hkl]
    refine ⟨by unfold Store.countRange; simp only [hresolve], ?_⟩
    intro limit reverse
    rw [slice_of_range hresolve]
    cases limit <;> cases reverse <;> simp [rangeKeys, directed, takeLimit, mapOk]
  · intro hkl hkh hmalformed
    obtain ⟨err, hresolve⟩ : ∃ err,
        (Store.create.run digest calls).resolveRange digest index low high = .error err := by
      unfold Store.resolveRange
      by_cases hwl : low.WellFormed index
      · obtain ⟨lo, -, hlp⟩ := boundPrefix_spec hinj hinv hwl hkl hlow
        obtain ⟨err, herr⟩ := boundPrefix_malformed digest (fun h => hmalformed ⟨hwl, h⟩) hkh
        exact ⟨err, by simp only [hlp, herr]⟩
      · obtain ⟨err, herr⟩ := boundPrefix_malformed digest hwl hkl
        exact ⟨err, by simp only [herr]⟩
    refine ⟨⟨err, by unfold Store.countRange; simp only [hresolve]⟩, ?_⟩
    intro limit reverse hlimit
    refine ⟨err, ?_⟩
    unfold Store.slice
    grind

end Slices

/-- A bound with an attribute and no entity is refused by the entity index, although the store
holds a datom with that attribute. -/
theorem slice_bound_gap_refused :
    zeroStore.slice zeroDigest .eav ⟨none, some "x", none, true⟩ {} none false =
      .error (.codec "eav bound has a/v without e") ∧
    zeroStore.slice zeroDigest .eav {} {} none false = .ok [⟨1, "x", .double plusZero⟩] := by
  constructor <;> decide +kernel

/-- A slice of the values of the attribute `"x"` from `0.0` on. -/
theorem slice_is_ordered_range_scan_zero :
    RangeScan zeroDigest (Store.create.run zeroDigest zeroCalls) .ave
      ⟨none, some "x", some (.double plusZero), true⟩ ⟨none, some "x", none, true⟩ := by
  refine slice_is_ordered_range_scan (Set.injOn_empty _) zeroCalls zeroCalls_hashesIn _ _ _ ?_ ?_
  · intro w raw hw hraw
    cases hw
    cases hashedBytes_plusZero.symm.trans hraw
  · simp

end Clojurust.Datalog
