import Clojurust.Datalog.Slice

/-!
# Reading back what was written

Attribute ids are an implementation detail as long as they are a bijection: then what is written
under a name is read back under it.

* `AttrsBijective` — names and ids determine each other, and every id in use has its name;
* `ReadsBack` — searches and slices return the datoms of a set, and no others;
* `readsBack_of_intact` — on an intact store they return what the history wrote.
-/

namespace Clojurust.Datalog

open SortedTable List

/-- Attribute names and ids determine each other, and every id in use has its name. -/
@[grind cases]
structure AttrsBijective (s : Store) : Prop where
  injective : ∀ n m aid p q, s.attrs.get n = some (aid, p) → s.attrs.get m = some (aid, q) → n = m
  resolves : ∀ aid n, s.attrNames.get aid = some n ↔ ∃ p, s.attrs.get n = some (aid, p)
  used : ∀ x, s.db.Has x → ∃ n, s.attrNames.get x.aid = some n

/-- Reads return the datoms of `D`, under their names. -/
@[grind cases]
structure ReadsBack (digest : Bytes → Digest) (s : Store) (D : Set Datom) : Prop where
  searched : ∀ e a v ds, s.search digest e a v = .ok ds → ∀ d ∈ ds, d ∈ D
  sliced : ∀ index low high limit reverse ds,
    s.slice digest index low high limit reverse = .ok ds → ∀ d ∈ ds, d ∈ D
  by_name : ∀ e a, ∃ ds, s.search digest e a none = .ok ds ∧
    ∀ d, d ∈ ds ↔ d ∈ D ∧ (∀ e', e = some e' → d.e = e') ∧ (∀ name, a = some name → d.a = name)
  by_index : ∀ index, ∃ ds, s.slice digest index {} {} none false = .ok ds ∧
    ∀ d, d ∈ ds ↔ d ∈ D ∧ (index = .vae → ∃ t, d.v = .ref t)

section ReadBack

variable {digest : Bytes → Digest} {R : Set Bytes} {s : Store}

/-! ## Searches -/

variable {r : Except StoreError (List Datom)} {ds : List Datom}

theorem ScanSpec.mem_datoms {P : Entry → Prop} {n : Nat}
    (h : ScanSpec s P n r) (hr : r = .ok ds) : ∀ d ∈ ds, d ∈ s.datoms := by
  obtain ⟨ds', hr', -, -, hmem⟩ := h.ok (fun x hx hP => h.named_of_ok hr hx hP)
  rw [hr] at hr'
  cases hr'
  intro d hd
  obtain ⟨x, hx, -, hdatom⟩ := (hmem d).mp hd
  exact ⟨x, hx, hdatom⟩

theorem retainEq_mem {w : StoreValue}
    (h : retainEq w r = .ok ds) : ∃ all, r = .ok all ∧ ∀ d ∈ ds, d ∈ all := by
  cases r with
  | error => cases h
  | ok =>
    cases h
    grind

theorem search_mem_datoms (hinv : StoreInv digest R s) {e : Option UInt64} {a : Option String}
    {v : Option StoreValue} (h : s.search digest e a v = .ok ds) :
    ∀ d ∈ ds, d ∈ s.datoms := by
  have hindex : ∀ aid venc ds, s.searchIndex e aid v venc = .ok ds → ∀ d ∈ ds, d ∈ s.datoms := by
    intro aid venc ds h
    have heav : ∀ pfx ds, s.scanEav pfx = .ok ds → ∀ d ∈ ds, d ∈ s.datoms :=
      fun pfx ds h => (scanEav_spec hinv pfx).mem_datoms h
    cases aid with
    | some =>
      cases e with
      | some e => exact heav _ ds h
      | none => exact (scanAve_spec hinv _).mem_datoms h
    | none =>
      cases v with
      | none => cases e <;> exact heav _ ds h
      | some w =>
        by_cases hfilter : e = none ∧ ∃ t, w = .ref t
        · obtain ⟨rfl, t, rfl⟩ := hfilter
          exact (scanVae_spec hinv t).mem_datoms h
        · rw [searchIndex_filtered hfilter] at h
          obtain ⟨all, hall, hsub⟩ := retainEq_mem h
          grind
  unfold Store.search at h
  grind

theorem searchable_of_intact (hi : Intact s) (e : Option UInt64) (a : Option String) :
    s.Searchable e a none := by
  refine ⟨fun _ h => (by cases h), ?_, fun _ _ h => (by cases h)⟩
  intro x hx hscans
  obtain ⟨n, hn⟩ := hi.used x hx
  refine ⟨n, hn, ?_⟩
  intro name ha
  have haid := hscans.2.1 name ha
  obtain ⟨⟨aid, p⟩, hget, rfl⟩ := Option.map_eq_some_iff.mp haid
  grind

/-! ## Slices -/

theorem mapOk_mem {α β ε : Type} {f : α → Except ε β} : ∀ {l : List α} {ys : List β},
    mapOk f l = .ok ys → ∀ y ∈ ys, ∃ x ∈ l, f x = .ok y
  | [], ys, h, y, hy => by
    cases h
    cases hy
  | x :: xs, ys, h, y, hy => by
    unfold mapOk at h
    cases hx : f x with
    | error => simp [hx] at h
    | ok z =>
      cases hxs : mapOk f xs with
      | error => simp [hx, hxs] at h
      | ok zs =>
        simp only [hx, hxs, Except.ok.injEq] at h
        subst h
        rcases mem_cons.mp hy with rfl | hy
        · exact ⟨x, (.head _), hx⟩
        · obtain ⟨x', hx', hfx'⟩ := mapOk_mem hxs y hy
          grind

theorem slice_mem_datoms (hinv : StoreInv digest R s) {index : Index} {low high : Bound}
    {limit : Option Nat} {reverse : Bool}
    (h : s.slice digest index low high limit reverse = .ok ds) : ∀ d ∈ ds, d ∈ s.datoms := by
  cases hresolve : s.resolveRange digest index low high with
  | error =>
    unfold Store.slice at h
    grind
  | ok range =>
    rw [slice_of_range hresolve] at h
    intro d hd
    obtain ⟨k, hk, hdecode⟩ := mapOk_mem h d hd
    have hkey : k ∈ (s.db index.dbi).keys := by
      have hk := mem_takeLimit_directed hk
      cases range with
      | none => cases hk
      | some => exact (mem_filter.mp hk).1
    obtain ⟨x, hx, hin, rfl⟩ := (mem_index_keys hinv.index index k).mp hkey
    obtain ⟨v, hv⟩ := hinv.content x hx
    rw [decodeIndexEntry_key (r := .ok v) hin (decodeValue_enc hv)] at hdecode
    exact ⟨x, hx, (nameDatom_ok_iff hv).mp hdecode⟩

theorem slice_all (hinj : Set.InjOn digest R) (hinv : StoreInv digest R s) (hi : Intact s)
    (index : Index) : ∃ ds, s.slice digest index {} {} none false = .ok ds ∧
      ∀ d, d ∈ ds ↔ d ∈ s.datoms ∧ (index = .vae → ∃ t, d.v = .ref t) := by
  have hwf : Bound.WellFormed index {} := by
    cases index <;> exact ⟨fun h => absurd rfl h, fun h => absurd rfl h, fun _ h => by cases h⟩
  have hknows : s.KnowsBound {} := fun _ h => by cases h
  obtain ⟨lo, hiC, xs, hlo, hhi, hxs, hspec⟩ := sliceSpec_of_bounds hinj hinv hwf hwf hknows hknows
    (fun _ _ h => by cases h) (fun _ _ h => by cases h)
  have hnil : ∀ cs, s.BoundAt index {} cs → cs = [] := by
    rintro cs ⟨kv, hkv, rfl⟩
    cases hkv
    cases index <;> rfl
  obtain rfl := hnil lo hlo
  obtain rfl := hnil hiC hhi
  obtain ⟨ds, hds, hall⟩ := hspec.slice (fun x hx => hi.used x ((hxs.mem x).mp hx).1) none false
  refine ⟨ds, hds, ?_⟩
  intro d
  rw [forall₂_mem_iff (R := s.DatomOf) (fun _ _ _ h h' => datomOf_unique h h') hall]
  simp only [takeLimit, directed, Bool.false_eq_true, if_false, hxs.mem]
  have href : ∀ x, s.DatomOf x d → ((∃ t, x.val = .inline (.ref t)) ↔ ∃ t, d.v = .ref t) := by
    intro x hd
    constructor
    · rintro ⟨t, ht⟩
      have := hd.2.2
      rw [ht] at this
      exact ⟨t, this.1.symm⟩
    · rintro ⟨t, ht⟩
      have := hd.2.2
      rw [ht] at this
      exact ⟨t, keyOf_ref_iff.mp this⟩
  constructor
  · rintro ⟨x, ⟨hx, hin, -⟩, hd⟩
    exact ⟨⟨x, hx, hd⟩, fun h => (href x hd).mp (hin h)⟩
  · rintro ⟨⟨x, hx, hd⟩, hvae⟩
    exact ⟨x, ⟨hx, fun h => (href x hd).mpr (hvae h), .inl rfl, .inl rfl⟩, hd⟩

theorem readsBack_of_intact (hinj : Set.InjOn digest R) (hinv : StoreInv digest R s)
    (hi : Intact s) : ReadsBack digest s s.datoms := by
  refine ⟨?_, ?_, ?_, slice_all hinj hinv hi⟩
  · intro e a v ds h
    exact search_mem_datoms hinv h
  · intro index low high limit reverse ds h
    exact slice_mem_datoms hinv h
  · intro e a
    have hexact : Exactly s (Matches e a none) (s.search digest e a none) := by
      cases a with
      | none =>
        rw [search_any_attr_iff hinj hinv e none (fun _ _ h => by cases h)]
        exact searchable_of_intact hi e none
      | some name =>
        rw [search_attr_iff hinj hinv e name none (fun _ _ h => by cases h)]
        exact searchable_of_intact hi e (some name)
    obtain ⟨ds, hds, -, hmem⟩ := hexact
    refine ⟨ds, hds, ?_⟩
    intro d
    rw [hmem]
    simp [Matches]

/-- **Attribute ids are a bijection** in every state of every history whose failed calls
introduce no attribute, and the datoms that the successful transactions wrote are read back
under the names they were written under. -/
theorem attribute_ids_are_a_bijection (hinj : Set.InjOn digest R) (calls : List Call)
    (hcalls : ∀ c ∈ calls, c.HashesIn R)
    (hfail : ∀ pre c post, calls = pre ++ c :: post → ∀ err,
      ((Store.create.run digest pre).call digest c).1 = .error err →
      c.NoFresh (Store.create.run digest pre)) :
    AttrsBijective (Store.create.run digest calls) ∧
      ReadsBack digest (Store.create.run digest calls) (Store.create.written digest calls ∅) := by
  have hinv := storeInv_run hinj calls Store.create storeInv_create hcalls
  obtain ⟨hi, hdatoms⟩ := intact_run hinj calls Store.create storeInv_create intact_create hcalls hfail
  rw [datoms_create] at hdatoms
  refine ⟨⟨by grind, by grind, hi.used⟩, ?_⟩
  rw [← hdatoms]
  exact readsBack_of_intact hinj hinv hi

end ReadBack

/-- The attribute `"x"` gets its id in a transaction that fails, and `"y"` gets the same id in
the next one. -/
def sharedId : List Call :=
  [.transact hundredCalls [.add 1 "x" oversizedVec], .transact hundredCalls [.add 1 "y" (.long 7)],
    .transact hundredCalls [.add 2 "x" (.long 8)]]

/-- Both names have the id 1, and the datom written under `"x"` is read under `"y"`. -/
theorem attributes_share_id : (Store.create.run zeroDigest sharedId).lookupAid "x" = some 1 ∧
    (Store.create.run zeroDigest sharedId).lookupAid "y" = some 1 ∧
    (Store.create.run zeroDigest sharedId).search zeroDigest (some 2) none none =
      .ok [⟨2, "y", .long 8⟩] := by
  refine ⟨?_, ?_, ?_⟩ <;> decide +kernel

/-- The history with `"x"` declared first. -/
def declaredId : List Call :=
  [.setAttr hundredCalls "x" {}, .transact hundredCalls [.add 1 "x" oversizedVec],
    .transact hundredCalls [.add 1 "x" (.long 7)]]

theorem declaredId_hashesIn : ∀ c ∈ declaredId, c.HashesIn ∅ := by
  have hvec : hashedBytes oversizedVec = none := by decide +kernel
  have hlong : hashedBytes (.long 7) = none := by decide
  intro c hc
  simp only [declaredId, mem_cons, not_mem_nil, or_false] at hc
  rcases hc with rfl | rfl | rfl
  · trivial
  · intro op hop raw hraw
    obtain rfl := mem_singleton.mp hop
    cases hvec.symm.trans hraw
  · intro op hop raw hraw
    obtain rfl := mem_singleton.mp hop
    cases hlong.symm.trans hraw

/-- It fails once, and what it wrote is read back. -/
theorem attribute_ids_are_a_bijection_declared :
    AttrsBijective (Store.create.run zeroDigest declaredId) ∧
      ReadsBack zeroDigest (Store.create.run zeroDigest declaredId)
        (Store.create.written zeroDigest declaredId ∅) := by
  refine attribute_ids_are_a_bijection (Set.injOn_empty _) declaredId declaredId_hashesIn ?_
  intro pre c post hcalls err herr
  match pre with
  | [] =>
    cases hcalls
    have hok : (Store.create.call zeroDigest (.setAttr hundredCalls "x" {})).1 = .ok () := by decide
    cases hok.symm.trans herr
  | [_] =>
    cases hcalls
    have hknown : (Store.create.run zeroDigest [.setAttr hundredCalls "x" {}]).Knows "x" :=
      ⟨(1, {}), by decide⟩
    exact ⟨.inl hknown, fun _ _ => trivial⟩
  | [_, _] =>
    cases hcalls
    have hok : ((Store.create.run zeroDigest [.setAttr hundredCalls "x" {},
        .transact hundredCalls [.add 1 "x" oversizedVec]]).call zeroDigest
        (.transact hundredCalls [.add 1 "x" (.long 7)])).1 = .ok () := by decide +kernel
    cases hok.symm.trans herr
  | _ :: _ :: _ :: pre => simp [declaredId] at hcalls

end Clojurust.Datalog
