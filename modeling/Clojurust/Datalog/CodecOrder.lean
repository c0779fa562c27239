import Clojurust.Datalog.CodecRoundtrip

/-!
# Value codec: order

`semanticCmp` states the order the store gives its values, with no reference to bytes: kinds by
tag, integers and entity ids numerically, doubles by the IEEE total order, strings, keywords
and byte strings bytewise with a proper prefix first, vectors element by element.

* `semanticCmp_eq` — values that compare equal are equal;
* `isOrderCode_encodeInline` — the encoding is an order code for it (`OrderCode.IsOrderCode`):
  byte order is value order, whatever follows the encodings in a composite key.
-/

namespace Clojurust.Datalog

open OrderCode List

/-- The kind of a value, as its tag byte. -/
def StoreValue.tag : StoreValue → UInt8
  | .bool _ => TAG_BOOL
  | .long _ => TAG_LONG
  | .double _ => TAG_DOUBLE
  | .instant _ => TAG_INSTANT
  | .str _ => TAG_STR
  | .keyword _ => TAG_KEYWORD
  | .uuid _ => TAG_UUID
  | .ref _ => TAG_REF
  | .bytes _ => TAG_BYTES
  | .vec _ => TAG_VEC

mutual
/-- The value order. -/
def semanticCmp : StoreValue → StoreValue → Ordering
  | .bool x, .bool y => compare x y
  | .long x, .long y => compare x.toInt y.toInt
  | .double x, .double y => x.totalCmp y
  | .instant x, .instant y => compare x.toInt y.toInt
  | .str x, .str y | .keyword x, .keyword y => compare (asBytes x) (asBytes y)
  | .uuid x, .uuid y => compare x.val y.val
  | .ref x, .ref y => compare x.toNat y.toNat
  | .bytes x, .bytes y => compare x y
  | .vec xs, .vec ys => semanticCmpItems xs ys
  | x, y => compare x.tag y.tag
/-- Vectors: element by element, a proper prefix first. -/
def semanticCmpItems : List StoreValue → List StoreValue → Ordering
  | [], [] => .eq
  | [], _ :: _ => .lt
  | _ :: _, [] => .gt
  | x :: xs, y :: ys => (semanticCmp x y).then (semanticCmpItems xs ys)
end

variable {a b : StoreValue}

theorem semanticCmp_of_tag_ne (h : a.tag ≠ b.tag) : semanticCmp a b = compare a.tag b.tag := by
  cases a <;> cases b <;> first | rfl | exact absurd rfl h

/-! ## Fixed-width components -/

theorem compare_u64ToBeBytes (m n : UInt64) (ra rb : List UInt8) :
    compare (u64ToBeBytes m ++ ra) (u64ToBeBytes n ++ rb) =
      (compare m.toNat n.toNat).then (compare ra rb) :=
  compare_beBytes_append 8 ra rb m.toNat_lt n.toNat_lt

theorem compare_eq_of_lt_iff {α β : Type} [LinearOrder α] [LinearOrder β] {a b : α} {c d : β}
    (hlt : a < b ↔ c < d) (hgt : b < a ↔ d < c) : compare a b = compare c d := by
  rcases lt_trichotomy a b with h | h | h
  · rw [compare_lt_iff_lt.mpr h, compare_lt_iff_lt.mpr (hlt.mp h)]
  · grind
  · rw [compare_gt_iff_gt.mpr h, compare_gt_iff_gt.mpr (hgt.mp h)]

theorem int64_toInt (n : Int64) : n.toInt =
    if n.toUInt64.toNat < 2 ^ 63 then (n.toUInt64.toNat : Int) else n.toUInt64.toNat - 2 ^ 64 := by
  have h : n.toInt = BitVec.toInt n.toUInt64.toBitVec := rfl
  rw [h, BitVec.toInt_eq_toNat_cond]
  have : n.toUInt64.toBitVec.toNat = n.toUInt64.toNat := rfl
  split <;> split <;> omega

theorem compare_orderI64 (m n : Int64) (ra rb : List UInt8) :
    compare (orderI64 m ++ ra) (orderI64 n ++ rb) =
      (compare m.toInt n.toInt).then (compare ra rb) := by
  unfold orderI64
  rw [compare_u64ToBeBytes, Word64.xor_signBit, Word64.xor_signBit]
  congr 1
  rw [int64_toInt, int64_toInt]
  apply compare_eq_of_lt_iff <;> split <;> split <;> omega

theorem orderedBits_toNat (d : F64) :
    (if d.bits &&& Word64.signBit = 0 then d.bits ||| Word64.signBit else ~~~d.bits).toNat =
      if d.isNeg then 2 ^ 63 - 1 - d.magnitude else 2 ^ 63 + d.magnitude := by
  have hd := d.bits.toNat_lt
  by_cases h : d.bits.toNat < 2 ^ 63
  · rw [if_pos ((Word64.and_signBit d.bits).mpr h), Word64.or_signBit h]
    simp only [F64.isNeg, F64.magnitude, show ¬ 2 ^ 63 ≤ d.bits.toNat by omega, decide_false,
      Bool.false_eq_true, if_false]
    omega
  · rw [if_neg (by rw [Word64.and_signBit]; exact h), UInt64.toNat_not]
    simp only [F64.isNeg, F64.magnitude, show 2 ^ 63 ≤ d.bits.toNat by omega, decide_true, if_true,
      UInt64.size]
    omega

theorem compare_orderF64 (x y : F64) (ra rb : List UInt8) :
    compare (orderF64 x ++ ra) (orderF64 y ++ rb) = (x.totalCmp y).then (compare ra rb) := by
  unfold orderF64
  rw [compare_u64ToBeBytes, orderedBits_toNat, orderedBits_toNat]
  congr 1
  have hx : x.magnitude < 2 ^ 63 := Nat.mod_lt _ (by decide)
  have hy : y.magnitude < 2 ^ 63 := Nat.mod_lt _ (by decide)
  cases h : x.isNeg <;> cases h' : y.isNeg <;>
    simp only [F64.totalCmp, h, h', Bool.false_eq_true, if_false, if_true]
  · apply compare_eq_of_lt_iff <;> omega
  · exact Nat.compare_eq_gt.mpr (by omega)
  · exact Nat.compare_eq_lt.mpr (by omega)
  · apply compare_eq_of_lt_iff <;> omega

theorem compare_append_of_length_eq : ∀ {x y : List UInt8} (ra rb : List UInt8),
    x.length = y.length → compare (x ++ ra) (y ++ rb) = (compare x y).then (compare ra rb)
  | [], [], _, _, _ => by simp
  | x :: xs, y :: ys, ra, rb, h => by
    simp only [List.cons_append, List.compare_cons_cons]
    rw [compare_append_of_length_eq ra rb (by simpa using h), Ordering.then_assoc]

/-! ## Values -/

theorem compare_cons_self (t : UInt8) (x y : List UInt8) : compare (t :: x) (t :: y) = compare x y := by
  simp

theorem compare_encodeInline_of_tag_ne (h : a.tag ≠ b.tag) (ra rb : List UInt8) :
    compare (encodeInline a ++ ra) (encodeInline b ++ rb) =
      (semanticCmp a b).then (compare ra rb) := by
  have head : ∀ v : StoreValue, ∃ bs, encodeInline v = v.tag :: bs := by
    intro v
    cases v <;> exact ⟨_, rfl⟩
  obtain ⟨x, hx⟩ := head a
  obtain ⟨y, hy⟩ := head b
  have hne : compare a.tag b.tag ≠ .eq := fun he => h (Std.LawfulEqOrd.eq_of_compare he)
  rw [semanticCmp_of_tag_ne h, hx, hy, List.cons_append, List.cons_append, List.compare_cons_cons]
  cases hc : compare a.tag b.tag with
  | lt => rfl
  | eq => exact absurd hc hne
  | gt => rfl

mutual
/-- **Byte order is value order, whatever follows.** -/
theorem compare_encodeInline : ∀ (a b : StoreValue) (ra rb : List UInt8),
    compare (encodeInline a ++ ra) (encodeInline b ++ rb) =
      (semanticCmp a b).then (compare ra rb) := by
  intro a b ra rb
  by_cases htag : a.tag = b.tag
  swap
  · exact compare_encodeInline_of_tag_ne htag ra rb
  cases a <;> cases b
  case bool.bool x y =>
    cases x <;> cases y <;>
      simp [encodeInline, List.compare_cons_cons, semanticCmp] <;> rfl
  case long.long x y => exact compare_orderI64 x y ra rb
  case double.double x y => exact compare_orderF64 x y ra rb
  case instant.instant x y => exact compare_orderI64 x y ra rb
  case str.str x y => exact isOrderCode_escape _ _ ra rb
  case keyword.keyword x y => exact isOrderCode_escape _ _ ra rb
  case uuid.uuid x y =>
    simp only [encodeInline, cons_append, compare_cons_self, semanticCmp]
    exact compare_append_of_length_eq ra rb (x.property.trans y.property.symm)
  case ref.ref x y => exact compare_u64ToBeBytes x y ra rb
  case bytes.bytes x y => exact isOrderCode_escape _ _ ra rb
  case vec.vec xs ys =>
    simp only [encodeInline, cons_append, compare_cons_self, semanticCmp, append_assoc, nil_append]
    exact compare_encodeItems xs ys ra rb
  all_goals exact absurd htag (by simp only [StoreValue.tag]; decide)

theorem compare_encodeItems : ∀ (xs ys : List StoreValue) (ra rb : List UInt8),
    compare (encodeItems xs ++ (TAG_VEC_END :: ra)) (encodeItems ys ++ (TAG_VEC_END :: rb)) =
      (semanticCmpItems xs ys).then (compare ra rb)
  | [], [], ra, rb => by
    simp [encodeItems, semanticCmpItems]
  | [], y :: ys, ra, rb => by
    -- the terminator is below every tag, so the shorter vector is smaller
    obtain ⟨tag, bs, hy, htag⟩ := encodeInline_head y
    have hlt : compare TAG_VEC_END tag = .lt := by
      rw [UInt8.compare_eq_toNat_compare_toNat]; exact Nat.compare_eq_lt.mpr (UInt8.lt_iff_toNat_lt.mp htag)
    simp [encodeItems, semanticCmpItems, hy, List.compare_cons_cons, hlt]
  | x :: xs, [], ra, rb => by
    obtain ⟨tag, bs, hx, htag⟩ := encodeInline_head x
    have hgt : compare tag TAG_VEC_END = .gt := by
      rw [UInt8.compare_eq_toNat_compare_toNat]; exact Nat.compare_eq_gt.mpr (UInt8.lt_iff_toNat_lt.mp htag)
    simp [encodeItems, semanticCmpItems, hx, List.compare_cons_cons, hgt]
  | x :: xs, y :: ys, ra, rb => by
    simp only [encodeItems, semanticCmpItems, List.append_assoc]
    rw [compare_encodeInline x y, compare_encodeItems xs ys, Ordering.then_assoc]
end

theorem isOrderCode_encodeInline : IsOrderCode semanticCmp encodeInline := compare_encodeInline

theorem semanticCmp_eq (h : semanticCmp a b = .eq) : a = b := by
  have hc := isOrderCode_encodeInline.compare_enc a b
  rw [h] at hc
  have he : encodeInline a = encodeInline b := Std.LawfulEqOrd.eq_of_compare hc
  exact encodeInline_prefix_eq (r := []) (by rw [he]; simp)

/-- **The codec preserves order.**  Comparing two encodings as byte strings gives the value
order; with arbitrary bytes behind them, as in composite index keys, the values are compared
first and what follows only if they are equal. -/
theorem value_codec_preserves_order (a b : StoreValue) :
    compare (encodeInline a) (encodeInline b) = semanticCmp a b ∧
    ∀ ra rb : List UInt8, compare (encodeInline a ++ ra) (encodeInline b ++ rb) =
      (semanticCmp a b).then (compare ra rb) :=
  ⟨isOrderCode_encodeInline.compare_enc a b, isOrderCode_encodeInline a b⟩

end Clojurust.Datalog
