import Mathlib.Data.List.Induction
import Clojurust.Datalog.CodecOrder
import Clojurust.Datalog.Query

/-!
# Index keys

What the byte strings in the three indexes stand for.

* `KeyVal` — the value part of a key: a value encoded inline, or a giant's kind, leading bytes
  and id; `isOrderCode_enc` — its encoding is an order code;
* `Entry` — an asserted `(entity, aid, value)` triple and its keys in `eav` and `ave`;
* `prefix_eavKey_iff`, … — which entries a key prefix selects;
* `prefixSuccessor_spec` — the successor of a prefix separates the strings up to and with the
  prefix from those beyond it.
-/

namespace Clojurust.Datalog

open OrderCode SortedTable List

/-! ## Fixed-width components -/

@[simp] theorem u32ToBeBytes_length (n : UInt32) : (u32ToBeBytes n).length = 4 := by
  simp [u32ToBeBytes]

@[simp] theorem u32FromBeBytes_toBeBytes (n : UInt32) : u32FromBeBytes (u32ToBeBytes n) = n := by
  unfold u32FromBeBytes u32ToBeBytes
  rw [ofBeBytes_beBytes n.toNat_lt]
  simp

theorem u64ToBeBytes_inj {m n : UInt64} : u64ToBeBytes m = u64ToBeBytes n ↔ m = n := by
  refine ⟨fun h => ?_, fun h => by rw [h]⟩
  have := congrArg u64FromBeBytes h
  simpa [u64FromBeBytes_toBeBytes] using this

theorem u32ToBeBytes_inj {m n : UInt32} : u32ToBeBytes m = u32ToBeBytes n ↔ m = n := by
  refine ⟨fun h => ?_, fun h => by rw [h]⟩
  have := congrArg u32FromBeBytes h
  simpa using this

/-! ## Values in keys -/

inductive GiantKind where
  | str | bytes
  deriving Repr, DecidableEq

def GiantKind.tag : GiantKind → UInt8
  | .str => TAG_GIANT_STR
  | .bytes => TAG_GIANT_BYTES

/-- The leading bytes of a giant. -/
abbrev GiantHead := { b : Bytes // b.length = GIANT_PREFIX }

/-- The value part of an index key. -/
inductive KeyVal where
  | inline (v : StoreValue)
  | giant (kind : GiantKind) (head : GiantHead) (id : UInt64)

namespace KeyVal

def enc : KeyVal → Bytes
  | .inline v => encodeInline v
  | .giant kind head id => kind.tag :: (head.val ++ u64ToBeBytes id)

/-- The order of keys: inline values by value, giants by kind, leading bytes and id. -/
def cmp : KeyVal → KeyVal → Ordering
  | .inline v, .inline w => semanticCmp v w
  | .inline v, .giant kind _ _ => compare v.tag kind.tag
  | .giant kind _ _, .inline w => compare kind.tag w.tag
  | .giant k h i, .giant k' h' i' =>
    (compare k.tag k'.tag).then ((compare h.val h'.val).then (compare i.toNat i'.toNat))

end KeyVal

theorem encodeInline_eq_tag_cons (v : StoreValue) : ∃ bs, encodeInline v = v.tag :: bs := by
  cases v <;> exact ⟨_, rfl⟩

theorem compare_tag_giant (v : StoreValue) (kind : GiantKind) : compare v.tag kind.tag ≠ .eq := by
  intro h
  have := Std.LawfulEqOrd.eq_of_compare h
  cases kind <;> cases v <;> revert this <;> simp only [StoreValue.tag, GiantKind.tag] <;> decide

theorem then_of_ne_eq {o : Ordering} (h : o ≠ .eq) (a b : Ordering) : o.then a = o.then b := by
  cases o with
  | lt => rfl
  | eq => exact absurd rfl h
  | gt => rfl

/-- **Keyed values are an order code**: inline encodings and giant keys never run into each
other, whatever follows them. -/
theorem isOrderCode_enc : IsOrderCode KeyVal.cmp KeyVal.enc := by
  intro a b ra rb
  cases a with
  | inline v =>
    cases b with
    | inline w => exact isOrderCode_encodeInline v w ra rb
    | giant kind =>
      obtain ⟨bs, hbs⟩ := encodeInline_eq_tag_cons v
      simp only [KeyVal.enc, KeyVal.cmp, hbs, List.cons_append, List.compare_cons_cons]
      exact then_of_ne_eq (compare_tag_giant v kind) _ _
  | giant kind head id =>
    cases b with
    | inline w =>
      obtain ⟨bs, hbs⟩ := encodeInline_eq_tag_cons w
      simp only [KeyVal.enc, KeyVal.cmp, hbs, List.cons_append, List.compare_cons_cons]
      refine then_of_ne_eq ?_ _ _
      rw [Std.OrientedOrd.eq_swap]
      intro h
      exact compare_tag_giant w kind (by simpa using h)
    | giant kind' head' =>
      simp only [KeyVal.enc, KeyVal.cmp, List.cons_append, List.append_assoc,
        List.compare_cons_cons]
      rw [compare_append_of_length_eq _ _ (by rw [head.2, head'.2]), compare_u64ToBeBytes,
        Ordering.then_assoc, Ordering.then_assoc]

variable {a b : KeyVal} {e e' : UInt64} {aid aid' : UInt32}

theorem KeyVal.cmp_eq (h : KeyVal.cmp a b = .eq) : a = b := by
  cases a with
  | inline v =>
    cases b with
    | inline w => rw [semanticCmp_eq h]
    | giant kind => exact absurd h (compare_tag_giant v kind)
  | giant kind head id =>
    cases b with
    | inline w =>
      simp only [KeyVal.cmp] at h
      rw [Std.OrientedOrd.eq_swap] at h
      exact absurd (by simpa using h) (compare_tag_giant w kind)
    | giant kind' head' id' =>
      obtain ⟨hk, h⟩ := Ordering.then_eq_eq.mp h
      obtain ⟨hh, hi⟩ := Ordering.then_eq_eq.mp h
      have hk : kind = kind' := by
        have := Std.LawfulEqOrd.eq_of_compare hk
        cases kind <;> cases kind' <;> first | rfl | exact absurd this (by decide)
      have hh : head = head' := Subtype.ext (Std.LawfulEqOrd.eq_of_compare hh)
      have hi : id = id' := UInt64.toNat_inj.mp (Nat.compare_eq_eq.mp hi)
      rw [hk, hh, hi]

/-- No encoding is the beginning of another one. -/
theorem KeyVal.enc_prefix_iff {r : Bytes} : a.enc <+: b.enc ++ r ↔ a = b := by
  constructor
  · rintro ⟨t, ht⟩
    exact (isOrderCode_enc.eq_of_append_eq (fun _ _ => KeyVal.cmp_eq) ht).1
  · grind

theorem KeyVal.enc_inj : a.enc = b.enc ↔ a = b := by
  constructor
  · intro h
    exact (KeyVal.enc_prefix_iff (r := [])).mp (by simp [h])
  · rintro rfl
    rfl

/-! ## Entries -/

/-- An asserted triple, as the indexes see it. -/
@[ext] structure Entry where
  e : UInt64
  aid : UInt32
  val : KeyVal

namespace Entry

def eavKey (x : Entry) : Bytes := Datalog.eavKey x.e x.aid x.val.enc

def aveKey (x : Entry) : Bytes := Datalog.aveKey x.aid x.val.enc x.e

end Entry

theorem eavKey_inj {venc venc' : Bytes} :
    eavKey e aid venc = eavKey e' aid' venc' ↔ e = e' ∧ aid = aid' ∧ venc = venc' := by
  constructor
  · intro h
    obtain ⟨he, h⟩ := append_inj h (by simp)
    obtain ⟨ha, hv⟩ := append_inj h (by simp)
    exact ⟨u64ToBeBytes_inj.mp he, u32ToBeBytes_inj.mp ha, hv⟩
  · grind

theorem aveKey_inj {venc venc' : Bytes} :
    aveKey aid venc e = aveKey aid' venc' e' ↔ e = e' ∧ aid = aid' ∧ venc = venc' := by
  constructor
  · intro h
    obtain ⟨ha, h⟩ := append_inj h (by simp)
    obtain ⟨hv, he⟩ := append_inj' h (by simp)
    exact ⟨u64ToBeBytes_inj.mp he, u32ToBeBytes_inj.mp ha, hv⟩
  · grind

theorem vaeKey_inj {t t' : UInt64} :
    vaeKey t aid e = vaeKey t' aid' e' ↔ t = t' ∧ aid = aid' ∧ e = e' := by
  constructor
  · intro h
    obtain ⟨ht, h⟩ := append_inj h (by simp)
    obtain ⟨ha, he⟩ := append_inj h (by simp)
    exact ⟨u64ToBeBytes_inj.mp ht, u32ToBeBytes_inj.mp ha, u64ToBeBytes_inj.mp he⟩
  · grind

theorem Entry.eavKey_inj {x y : Entry} : x.eavKey = y.eavKey ↔ x = y := by
  unfold Entry.eavKey
  rw [Datalog.eavKey_inj, KeyVal.enc_inj, Entry.ext_iff]

theorem Entry.aveKey_inj {x y : Entry} : x.aveKey = y.aveKey ↔ x = y := by
  unfold Entry.aveKey
  rw [Datalog.aveKey_inj, KeyVal.enc_inj, Entry.ext_iff]

/-! ## Prefixes of keys -/

section Prefixes

variable {x : Entry} {e t t' : UInt64} {aid : UInt32} {kv : KeyVal}

theorem prefix_eavKey_iff {p : Bytes} :
    u64ToBeBytes e ++ p <+: x.eavKey ↔ e = x.e ∧ p <+: u32ToBeBytes x.aid ++ x.val.enc := by
  unfold Entry.eavKey Datalog.eavKey
  rw [prefix_append_inj_of_length_eq (by simp), u64ToBeBytes_inj]

theorem prefix_append_iff {a b q : Bytes} (h : a.length = b.length) : a <+: b ++ q ↔ a = b := by
  have hpair : a ++ [] <+: b ++ q ↔ _ := prefix_append_inj_of_length_eq h
  simpa using hpair

theorem prefix_eavKey_e_iff : u64ToBeBytes e <+: x.eavKey ↔ e = x.e := by
  have := prefix_eavKey_iff (x := x) (e := e) (p := [])
  simpa using this

theorem prefix_eavKey_ea_iff :
    u64ToBeBytes e ++ u32ToBeBytes aid <+: x.eavKey ↔ e = x.e ∧ aid = x.aid := by
  rw [prefix_eavKey_iff, prefix_append_iff (by simp), u32ToBeBytes_inj]

theorem prefix_eavKey_eav_iff : u64ToBeBytes e ++ (u32ToBeBytes aid ++ kv.enc) <+: x.eavKey ↔
      e = x.e ∧ aid = x.aid ∧ kv = x.val := by
  have h := KeyVal.enc_prefix_iff (a := kv) (b := x.val) (r := [])
  rw [append_nil] at h
  rw [prefix_eavKey_iff, prefix_append_inj_of_length_eq (by simp), u32ToBeBytes_inj, h]

theorem prefix_aveKey_a_iff : u32ToBeBytes aid <+: x.aveKey ↔ aid = x.aid := by
  unfold Entry.aveKey Datalog.aveKey
  rw [prefix_append_iff (by simp), u32ToBeBytes_inj]

theorem prefix_aveKey_av_iff :
    u32ToBeBytes aid ++ kv.enc <+: x.aveKey ↔ aid = x.aid ∧ kv = x.val := by
  unfold Entry.aveKey Datalog.aveKey
  rw [prefix_append_inj_of_length_eq (by simp), u32ToBeBytes_inj, KeyVal.enc_prefix_iff]

theorem prefix_vaeKey_iff : u64ToBeBytes t <+: vaeKey t' aid e ↔ t = t' := by
  unfold vaeKey
  rw [prefix_append_iff (by simp), u64ToBeBytes_inj]

end Prefixes

/-! ## Successors of prefixes -/

/-- The strings up to and including the continuations of `p`. -/
def UpTo (p k : Bytes) : Prop := compare k p = .lt ∨ p <+: k

theorem compare_nil_ne_lt (k : Bytes) : compare k [] ≠ .lt := by
  cases k <;> simp [List.compare_cons_nil]

theorem upTo_cons_cons {a c : UInt8} {p k : Bytes} :
    UpTo (a :: p) (c :: k) ↔ compare c a = .lt ∨ (c = a ∧ UpTo p k) := by
  unfold UpTo
  rw [List.compare_cons_cons, List.cons_prefix_cons]
  cases h : compare c a with
  | lt => simp
  | gt =>
    have : c ≠ a := by rintro rfl; simp at h
    simp [this, this.symm]
  | eq => grind

theorem upTo_nil (k : Bytes) : UpTo [] k := .inr List.nil_prefix

theorem upTo_cons_nil (a : UInt8) (p : Bytes) : UpTo (a :: p) [] := .inl List.compare_nil_cons

theorem compare_le_max (c : UInt8) : compare c 0xFF = .lt ∨ c = 0xFF := by
  rw [Std.compare_eq_lt]
  grind

theorem compare_succ {c b : UInt8} (hb : b ≠ 0xFF) :
    compare c (b + 1) = .lt ↔ compare c b = .lt ∨ c = b := by
  rw [Std.compare_eq_lt, Std.compare_eq_lt]
  grind

attribute [local simp] upTo_cons_nil

theorem upTo_append_max (q k : Bytes) : UpTo (q ++ [0xFF]) k ↔ UpTo q k := by
  induction q generalizing k with
  | nil =>
    cases k with
    | nil => simp [upTo_nil]
    | cons => simp [upTo_cons_cons, upTo_nil, compare_le_max]
  | cons a q ih =>
    cases k with
    | nil => simp
    | cons => simp [upTo_cons_cons, ih]

/-- Below the last byte raised by one lies what the bytes are a beginning of, and what is smaller. -/
theorem compare_append_succ {b : UInt8} (hb : b ≠ 0xFF) (q k : Bytes) :
    compare k (q ++ [b + 1]) = .lt ↔ UpTo (q ++ [b]) k := by
  induction q generalizing k with
  | nil =>
    cases k with
    | nil => simp [List.compare_nil_cons]
    | cons =>
      simp only [List.nil_append, upTo_cons_cons, upTo_nil, and_true, List.compare_cons_cons]
      rw [← compare_succ hb, Ordering.then_eq_lt]
      simp [compare_nil_ne_lt]
  | cons a q ih =>
    cases k with
    | nil => simp [List.compare_nil_cons]
    | cons =>
      simp only [List.cons_append, upTo_cons_cons, List.compare_cons_cons, ← ih,
        Ordering.then_eq_lt, Std.compare_eq_iff_eq]

theorem prefixSuccessor_append (q : Bytes) (b : UInt8) : prefixSuccessor (q ++ [b]) =
    if b = 0xFF then prefixSuccessor q else some (q ++ [b + 1]) := by
  unfold prefixSuccessor
  rw [reverse_append, reverse_singleton, singleton_append, prefixSuccessorLoop]
  split <;> simp

/-- **The successor of a prefix.**  Exactly the strings up to and with the prefix lie below it;
when there is none, every string does. -/
theorem prefixSuccessor_spec (p k : Bytes) : match prefixSuccessor p with
    | some succ => compare k succ = .lt ↔ UpTo p k
    | none => UpTo p k := by
  induction p using List.reverseRecOn with
  | nil => exact upTo_nil k
  | append_singleton q b ih =>
    rw [prefixSuccessor_append]
    by_cases hb : b = 0xFF
    · subst hb
      cases hs : prefixSuccessor q with
      | some =>
        rw [hs] at ih
        exact ih.trans (upTo_append_max q k).symm
      | none =>
        rw [hs] at ih
        exact (upTo_append_max q k).mpr ih
    · simp only [if_neg hb]
      exact compare_append_succ hb q k

end Clojurust.Datalog
