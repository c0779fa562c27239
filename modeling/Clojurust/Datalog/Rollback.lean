import Clojurust.Datalog.TxnSpec

/-!
# What a failed transaction leaves behind

An aborted write transaction leaves every table as it was, but the attribute caches are not
part of it: an attribute interned by an earlier operation of a failed `transact` stays cached.

* `failed_transact_interns` — such a call, on a new store;
* `NoFreshAttr` — no operation the call can get to names an attribute that is new to the store;
* `transact_error_unchanged` — then a failed call leaves the store as it was, wherever it failed;
* `failed_transactions_change_nothing` — over whole histories: the failed transactions can be
  struck out.
-/

namespace Clojurust.Datalog

open SortedTable StateExcept

/-- The attribute is in the cache. -/
def Store.Knows (s : Store) (name : String) : Prop := ∃ r, s.attrs.get name = some r

/-- The name can be a key of the schema table. -/
def KeyName (name : String) : Prop :=
  0 < (asBytes name).length ∧ (asBytes name).length ≤ MDB_MAXKEYSIZE

/-- The value has a key encoding: it is short enough, or may overflow to the giants table. -/
def Storable (v : StoreValue) : Prop :=
  (encodeInline v).length ≤ GIANT_THRESHOLD ∨ (giantParts v).isSome

/-- Up to the first operation that the store has to reject (for its value, or for an attribute
name that cannot be a key), every operation names an attribute in the cache. -/
def NoFreshAttr (s : Store) : List Op → Prop
  | [] => True
  | op :: ops =>
    (s.Knows op.attr ∨ ¬ KeyName op.attr) ∧
      (s.Knows op.attr → Storable op.value → NoFreshAttr s ops)

variable {s : Store}

theorem NoFreshAttr.congr {s' : Store} (h : s'.attrs = s.attrs) : ∀ {ops : List Op},
    NoFreshAttr s ops → NoFreshAttr s' ops
  | [], _ => trivial
  | op :: ops, ho => by
    have hk : s'.Knows op.attr ↔ s.Knows op.attr := by unfold Store.Knows; rw [h]
    refine ⟨ho.1.imp_left hk.mpr, ?_⟩
    intro hknows hv
    exact NoFreshAttr.congr h (ho.2 (hk.mp hknows) hv)

/-! ## One operation -/

section Ops

variable {digest : Bytes → Digest} {t : Txn} {op : Op}

theorem not_storable {v : StoreValue} (hv : ¬ Storable v) :
    ¬ (encodeInline v).length ≤ GIANT_THRESHOLD ∧ giantParts v = none :=
  ⟨fun h => hv (.inl h), Option.not_isSome_iff_eq_none.mp fun h => hv (.inr h)⟩

theorem wp_encodeValueForKey_not_storable {v : StoreValue} (hv : ¬ Storable v) :
    wp (encodeValueForKey digest v) (fun _ _ => False) (fun _ t' => SameCaches t t') t := by
  obtain ⟨hlong, hnone⟩ := not_storable hv
  unfold encodeValueForKey
  rw [if_neg hlong, hnone]
  exact SameCaches.refl t

theorem wp_applyOp_known (h : t.toStore.Knows op.attr) :
    wp (applyOp digest op) (fun _ t' => SameCaches t t' ∧ Storable op.value)
      (fun _ t' => SameCaches t t') t := by
  obtain ⟨r, hr⟩ := h
  by_cases hv : Storable op.value
  · have hkeep : wp (applyOp digest op) (fun _ t' => SameCaches t t') (fun _ t' => SameCaches t t') t := by
      cases op with
      | add e a v =>
        refine wp_bind.mpr (wp_internAttr_known hr ?_)
        refine Keeps.caches_bind (keeps_replaceExisting e r.1 r.2) (fun _ => ?_) t
        exact Keeps.caches_bind (keeps_encodeValueForKey digest v) fun venc =>
          keeps_insertDatom e r.1 venc v
      | retract e a v =>
        refine wp_bind.mpr (wp_internAttr_known hr ?_)
        exact Keeps.caches_bind (keeps_encodeValueForKey digest v)
          (fun venc => keeps_deleteDatomEncoded e r.1 venc v) t
    grind
  · cases op with
    | add e =>
      refine wp_bind.mpr (wp_internAttr_known hr ?_)
      refine wp_seq (keeps_replaceExisting e r.1 r.2 t) ?_
      intro _ t1 h1
      exact wp_seq_weaken (wp_encodeValueForKey_not_storable hv) (fun _ _ h => h.elim)
        (fun _ _ h => h1.trans h)
    | retract =>
      refine wp_bind.mpr (wp_internAttr_known hr ?_)
      exact wp_seq (wp_encodeValueForKey_not_storable hv) fun _ _ h => h.elim

theorem wp_applyOp_bad_name (h : t.attrs.get op.attr = none) (hname : ¬ KeyName op.attr) :
    wp (applyOp digest op) (fun _ _ => False) (fun _ t' => SameCaches t t') t := by
  have hintern : wp (internAttr op.attr none) (fun _ _ => False) (fun _ t' => SameCaches t t') t := by
    refine wp_mono (wp_internAttr_fresh h) ?_
    rintro r t' ⟨n, t1, -, -, hs⟩
    exact hname ⟨hs.keyPos, hs.keyMax⟩
  cases op with
  | add | retract => exact wp_seq hintern fun _ _ h => h.elim

theorem wp_applyOps_noFresh : ∀ (ops : List Op) (t : Txn) (maxEid : UInt64),
    NoFreshAttr t.toStore ops →
    wp (applyOps digest ops maxEid) (fun _ t' => SameCaches t t') (fun _ t' => SameCaches t t') t
  | [], t, _, _ => SameCaches.refl t
  | op :: ops, t, maxEid, h => by
    obtain ⟨hattr, hrest⟩ := h
    cases hg : t.attrs.get op.attr with
    | some r =>
      have hk : t.toStore.Knows op.attr := ⟨r, hg⟩
      refine wp_seq (wp_applyOp_known hk) ?_
      rintro _ t1 ⟨h1, hv⟩
      have ih := wp_applyOps_noFresh ops t1 (op.maxEid maxEid) ((hrest hk hv).congr h1.1)
      exact wp_weaken ih (fun _ _ h => h1.trans h) (fun _ _ h => h1.trans h)
    | none =>
      have hk : ¬ t.toStore.Knows op.attr := by
        rintro ⟨r, hr⟩
        rw [hg] at hr
        cases hr
      exact wp_seq (wp_applyOp_bad_name hg (hattr.resolve_left hk)) fun _ _ h => h.elim

end Ops

/-! ## Whole calls -/

theorem Store.write_error {fault : Fault} {x : Tx Unit} {err : StoreError}
    {s' : Store} (h : s.write fault x = (.error err, s')) :
    ∃ t, x ⟨s, fault.served, fault.code⟩ = .error err t ∧ s' = ⟨s.db, t.attrs, t.attrNames⟩ := by
  unfold Store.write at h
  grind

section Calls

variable {digest : Bytes → Digest}

theorem wp_transactTxn_noFresh {t : Txn} {ops : List Op} (h : NoFreshAttr t.toStore ops) :
    wp (transactTxn digest ops) (fun _ _ => True) (fun _ t' => SameCaches t t') t := by
  refine wp_seq_weaken (wp_lmdbCall t) ?_ (fun _ _ h => h.2)
  intro _ t1 h1
  refine wp_seq_weaken (wp_txnGet _ _ t1) ?_ (fun _ _ h => h1.2.trans h.2)
  rintro r t2 ⟨-, h2⟩
  have h12 : SameCaches t t2 := h1.2.trans h2.2
  refine wp_seq_weaken (wp_applyOps_noFresh ops t2 _ (h.congr h12.1)) ?_ (fun _ _ h => h12.trans h)
  intro maxEid t3 h3
  refine wp_seq_weaken (wp_txnPut _ _ _ t3) ?_ (fun _ _ h => (h12.trans h3).trans h)
  intro _ t4 h4
  exact wp_weaken (wp_lmdbCall t4) (fun _ _ _ => trivial)
    (fun _ _ h => ((h12.trans h3).trans h4.caches).trans h.2)

/-- **A failed transaction without new attributes changes nothing**, wherever it fails. -/
theorem transact_error_unchanged {s' : Store} {fault : Fault} {ops : List Op} {err : StoreError}
    (hops : NoFreshAttr s ops) (h : s.transact digest fault ops = (.error err, s')) : s' = s := by
  obtain ⟨t, ht, rfl⟩ := Store.write_error h
  obtain ⟨hattrs, hnames⟩ := wp_error (wp_transactTxn_noFresh hops) ht
  rw [hattrs, hnames]

end Calls

/-! ## Histories -/

variable (digest : Bytes → Digest)

/-- Does the call, made on `s`, fail as a transaction? -/
def Store.failedTransact (s : Store) : Call → Bool
  | .transact fault ops =>
    match (s.transact digest fault ops).1 with
    | .ok _ => false
    | .error _ => true
  | _ => false

/-- The history of calls on `s` without its failed transactions. -/
def strikeFailed : Store → List Call → List Call
  | _, [] => []
  | s, c :: cs =>
    if s.failedTransact digest c then strikeFailed (s.step digest c) cs
    else c :: strikeFailed (s.step digest c) cs

theorem run_strikeFailed : ∀ (calls : List Call) (s : Store),
    (∀ pre fault ops post, calls = pre ++ .transact fault ops :: post →
      (s.run digest pre).failedTransact digest (.transact fault ops) = true →
      NoFreshAttr (s.run digest pre) ops) →
    s.run digest calls = s.run digest (strikeFailed digest s calls)
  | [], _, _ => rfl
  | c :: cs, s, h => by
    have ih := run_strikeFailed cs (s.step digest c) (fun pre fault ops post hcs hf =>
      h (c :: pre) fault ops post (by rw [hcs]; rfl) hf)
    unfold strikeFailed
    split
    · rename_i hf
      have hstep : s.step digest c = s := by
        cases c with
        | reopen | setAttr => cases hf
        | transact fault ops =>
          have hfresh := h [] fault ops cs rfl hf
          unfold Store.failedTransact at hf
          simp only at hf
          split at hf
          · cases hf
          · rename_i err herr
            exact transact_error_unchanged hfresh (Prod.ext herr rfl)
      calc s.run digest (c :: cs) = (s.step digest c).run digest cs := rfl
        _ = (s.step digest c).run digest (strikeFailed digest (s.step digest c) cs) := ih
        _ = s.run digest (strikeFailed digest (s.step digest c) cs) := by rw [hstep]
    · exact ih

/-- **Failed transactions change nothing**, in every history whose failed transactions name no
attribute that is new to the store before the operation at which they must fail: each of them
leaves the store as it was, and the history ends where it would have without them. -/
theorem failed_transactions_change_nothing (calls : List Call)
    (h : ∀ pre fault ops post, calls = pre ++ .transact fault ops :: post →
      (Store.create.run digest pre).failedTransact digest (.transact fault ops) = true →
      NoFreshAttr (Store.create.run digest pre) ops) :
    (∀ pre fault ops post err s', calls = pre ++ .transact fault ops :: post →
      (Store.create.run digest pre).transact digest fault ops = (.error err, s') →
      s' = Store.create.run digest pre) ∧
    Store.create.run digest calls =
      Store.create.run digest (strikeFailed digest Store.create calls) := by
  refine ⟨?_, run_strikeFailed digest calls Store.create h⟩
  intro pre fault ops post err s' hcalls herr
  refine transact_error_unchanged (h pre fault ops post hcalls ?_) herr
  unfold Store.failedTransact
  simp only [herr]

/-- A vector of 45 longs: its encoding is longer than `GIANT_THRESHOLD`. -/
def oversizedVec : StoreValue := .vec (List.replicate 45 (.long 0))

/-- A digest for histories that store no giant. -/
def zeroDigest : Bytes → Digest := fun _ => ⟨List.replicate 32 0, rfl⟩

/-- An environment that serves the first hundred calls. -/
def hundredCalls : Fault := ⟨100, 5⟩

/-- On a new store, asserting an oversized vector under the attribute `"x"` fails, and yet the
attribute is declared afterwards. -/
theorem failed_transact_interns :
    (Store.create.transact zeroDigest hundredCalls [.add 1 "x" oversizedVec]).1 =
      .error (.codec "only strings and bytes can be giant") ∧
    Store.create.attrProps "x" = none ∧
    (Store.create.transact zeroDigest hundredCalls [.add 1 "x" oversizedVec]).2.attrProps "x" =
      some {} := by
  refine ⟨?_, ?_, ?_⟩ <;> decide +kernel

/-- The same transaction on a store that knows the attribute. -/
theorem failed_transactions_change_nothing_declared : (∀ pre fault ops post err s',
      [.setAttr hundredCalls "x" {}, .transact hundredCalls [.add 1 "x" oversizedVec]] =
        pre ++ .transact fault ops :: post →
      (Store.create.run zeroDigest pre).transact zeroDigest fault ops = (.error err, s') →
      s' = Store.create.run zeroDigest pre) ∧
    Store.create.run zeroDigest
        [.setAttr hundredCalls "x" {}, .transact hundredCalls [.add 1 "x" oversizedVec]] =
      Store.create.run zeroDigest (strikeFailed zeroDigest Store.create
        [.setAttr hundredCalls "x" {}, .transact hundredCalls [.add 1 "x" oversizedVec]]) := by
  apply failed_transactions_change_nothing
  intro pre fault ops post hcalls _
  cases pre with
  | nil => cases hcalls
  | cons c pre =>
    cases pre with
    | nil =>
      cases hcalls
      have hknown : (Store.create.run zeroDigest [.setAttr hundredCalls "x" {}]).Knows "x" :=
        ⟨(1, {}), by decide⟩
      exact ⟨.inl hknown, fun _ _ => trivial⟩
    | cons => simp at hcalls

end Clojurust.Datalog
