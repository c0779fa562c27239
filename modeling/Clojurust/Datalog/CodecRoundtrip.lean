import Clojurust.Datalog.Codec

/-!
# Value codec: round trip

* `decodeFuel_encodeInline` — the decoder inverts the encoder in front of arbitrary bytes, for
  any fuel that covers the encoding;
* `decode_encodeInline_append` — the same for `decode` itself;
* `decode_reads_front` — `decode` on arbitrary bytes;
* `value_codec_round_trip` — round trip, bytes consumed and prefix-freeness in one statement.
-/

namespace Clojurust.Datalog

open OrderCode List

/-! ## Fixed-width components -/

@[simp] theorem u64ToBeBytes_length (n : UInt64) : (u64ToBeBytes n).length = 8 := by
  simp [u64ToBeBytes]

theorem u64FromBeBytes_toBeBytes (n : UInt64) : u64FromBeBytes (u64ToBeBytes n) = n := by
  unfold u64FromBeBytes u64ToBeBytes
  rw [ofBeBytes_beBytes n.toNat_lt]
  simp

@[simp] theorem orderI64_length (n : Int64) : (orderI64 n).length = 8 := by simp [orderI64]

@[simp] theorem orderF64_length (d : F64) : (orderF64 d).length = 8 := by simp [orderF64]

theorem unorderI64_orderI64 (n : Int64) : unorderI64 (orderI64 n) = n := by
  unfold unorderI64 orderI64
  rw [u64FromBeBytes_toBeBytes, UInt64.xor_assoc, UInt64.xor_self, UInt64.xor_zero]

theorem signBit_not_toNat : (~~~Word64.signBit).toNat = 2 ^ 63 - 1 := by decide

theorem or_and_signBit {a : UInt64} (h : a.toNat < 2 ^ 63) :
    (a ||| Word64.signBit) &&& ~~~Word64.signBit = a := by
  rw [← UInt64.toNat_inj, UInt64.toNat_and, Word64.or_signBit h, signBit_not_toNat,
    Nat.and_two_pow_sub_one_eq_mod]
  omega

theorem unorderF64_orderF64 (d : F64) : unorderF64 (orderF64 d) = d := by
  unfold unorderF64 orderF64
  rw [u64FromBeBytes_toBeBytes]
  by_cases h : d.bits &&& Word64.signBit = 0
  · have hlt := (Word64.and_signBit d.bits).mp h
    have hset : (d.bits ||| Word64.signBit) &&& Word64.signBit ≠ 0 := by
      rw [Ne, Word64.and_signBit, Word64.or_signBit hlt]; omega
    simp only [h, if_true, hset, ne_eq, not_false_eq_true, or_and_signBit hlt]
  · have hge : 2 ^ 63 ≤ d.bits.toNat := by
      rw [Word64.and_signBit] at h; omega
    have hclr : ~~~d.bits &&& Word64.signBit = 0 := by
      rw [Word64.and_signBit, UInt64.toNat_not]
      simp only [UInt64.size]; omega
    simp only [h, if_false, hclr, ne_eq, not_true_eq_false, UInt64.not_not]

theorem fromUtf8_asBytes (s : String) : fromUtf8 (asBytes s) = some s := by
  have hb : (⟨(asBytes s).toArray⟩ : ByteArray) = s.toByteArray := by simp [asBytes]
  unfold fromUtf8 String.fromUTF8?
  rw [hb, dif_pos s.isValidUTF8]
  rfl

variable {rest : List UInt8} {v w : StoreValue}

theorem getPrefix_append {bs : List UInt8} {n : Nat} (h : bs.length = n) :
    getPrefix (bs ++ rest) n = some bs := by simp [getPrefix, ← h]

/-! ## Escaped strings -/

attribute [local simp] TAG_LONG TAG_VEC TAG_BOOL TAG_INSTANT TAG_DOUBLE TAG_STR TAG_KEYWORD TAG_UUID
  TAG_REF TAG_BYTES

theorem popEscapedLoop_escape (raw : List UInt8) : ∀ (acc : List UInt8) (i : Nat) (rest : List UInt8),
    popEscapedLoop (escape raw ++ rest) acc i = .ok (acc ++ raw, i + (escape raw).length) := by
  induction raw with
  | nil => simp [escape, popEscapedLoop]
  | cons b raw ih =>
    intro acc i rest
    by_cases hb : b = 0
    · subst hb
      simp [escape, popEscapedLoop, ih, Nat.add_assoc]
      omega
    · -- the escaped tail is never empty, so the three-pattern loop takes its last arm
      obtain ⟨c, cs, hc⟩ : ∃ c cs, escape raw ++ rest = c :: cs := by
        cases raw with
        | nil => exact ⟨_, _, rfl⟩
        | cons => unfold escape; split <;> exact ⟨_, _, rfl⟩
      have hstep := ih (acc ++ [b]) (i + 1) rest
      rw [hc] at hstep
      simp only [escape, hb, if_false, cons_append, hc, popEscapedLoop, hstep]
      simp [Nat.add_assoc, Nat.add_comm]

theorem popEscaped_pushEscaped (raw rest : List UInt8) :
    popEscaped (pushEscaped raw ++ rest) = .ok (raw, (pushEscaped raw).length) := by
  unfold popEscaped pushEscaped
  rw [popEscapedLoop_escape]; simp

/-! ## Values -/

theorem encodeInline_head (v : StoreValue) :
    ∃ tag bs, encodeInline v = tag :: bs ∧ TAG_VEC_END < tag := by
  cases v <;> simp only [encodeInline] <;> exact ⟨_, _, rfl, by decide⟩

mutual
/-- **The decoder inverts the encoder**, whatever follows, for any fuel covering the encoding. -/
theorem decodeFuel_encodeInline : ∀ (v : StoreValue) (fuel : Nat) (rest : List UInt8),
    2 * (encodeInline v).length + 1 ≤ fuel →
    decodeFuel fuel (encodeInline v ++ rest) = .ok (.value v, (encodeInline v).length)
  | _, 0, _, h => by omega
  | .bool b, fuel + 1, rest, _ => by cases b <;> rfl
  | .long n, fuel + 1, rest, _ | .instant n, fuel + 1, rest, _ => by
    simp only [encodeInline, cons_append, decodeFuel, decodeFlat,
      getPrefix_append (orderI64_length n), unorderI64_orderI64]
    simp
  | .double d, fuel + 1, rest, _ => by
    simp only [encodeInline, cons_append, decodeFuel, decodeFlat,
      getPrefix_append (orderF64_length d), unorderF64_orderF64]
    simp
  | .str s, fuel + 1, rest, _ | .keyword s, fuel + 1, rest, _ => by
    simp only [encodeInline, cons_append, decodeFuel, decodeFlat, popEscaped_pushEscaped,
      fromUtf8_asBytes]
    simp [Nat.add_comm]
  | .uuid b, fuel + 1, rest, _ => by
    have htake : (b.val ++ rest).take 16 = b.val := take_left' b.property
    have hlen : 16 ≤ (b.val ++ rest).length := by rw [length_append, b.property]; omega
    simp only [encodeInline, cons_append, decodeFuel, decodeFlat, hlen, dite_true, htake]
    simp [b.property]
  | .ref e, fuel + 1, rest, _ => by
    simp only [encodeInline, cons_append, decodeFuel, decodeFlat,
      getPrefix_append (u64ToBeBytes_length e), u64FromBeBytes_toBeBytes]
    simp
  | .bytes b, fuel + 1, rest, _ => by
    simp only [encodeInline, cons_append, decodeFuel, decodeFlat, popEscaped_pushEscaped]
    simp [Nat.add_comm]
  | .vec items, fuel + 1, rest, h => by
    simp only [encodeInline, length_cons, length_append, length_nil] at h ⊢
    have hloop := decodeItems_encodeItems items fuel [TAG_VEC] rest [] (by omega)
    simp only [length_cons, length_nil, cons_append, nil_append, Nat.zero_add] at hloop
    simp only [cons_append, append_assoc, nil_append, decodeFuel, if_true, hloop]
    congr 2
    omega

theorem decodeItems_encodeItems : ∀ (items : List StoreValue) (fuel : Nat) (pre rest : List UInt8)
    (acc : List StoreValue), 2 * (encodeItems items).length + 2 ≤ fuel →
    decodeItems fuel (pre ++ (encodeItems items ++ (TAG_VEC_END :: rest))) pre.length acc =
      .ok (.value (.vec (acc ++ items)), pre.length + (encodeItems items).length + 1)
  | _, 0, _, _, _, h => by omega
  | [], fuel + 1, pre, rest, acc, _ => by
    simp [encodeItems, decodeItems]
  | v :: vs, fuel + 1, pre, rest, acc, h => by
    obtain ⟨tag, bs, hv, htag⟩ := encodeInline_head v
    simp only [encodeItems, length_append] at h
    have hpos : 0 < (encodeInline v).length := by rw [hv]; simp
    have hhead : (pre ++ (encodeItems (v :: vs) ++ (TAG_VEC_END :: rest)))[pre.length]? = some tag := by
      rw [getElem?_append_right (Nat.le_refl _)]
      simp [encodeItems, hv]
    have hdrop : (pre ++ (encodeItems (v :: vs) ++ (TAG_VEC_END :: rest))).drop pre.length =
        encodeInline v ++ (encodeItems vs ++ (TAG_VEC_END :: rest)) := by
      rw [drop_left, encodeItems, append_assoc]
    have hone := decodeFuel_encodeInline v fuel (encodeItems vs ++ (TAG_VEC_END :: rest)) (by omega)
    have hrest := decodeItems_encodeItems vs fuel (pre ++ encodeInline v) rest (acc ++ [v]) (by omega)
    have hne : tag ≠ TAG_VEC_END := by
      rintro rfl
      exact absurd htag (by decide)
    simp only [decodeItems, hhead, hne, if_false, hdrop, hone]
    simp only [length_append, append_assoc, cons_append, nil_append] at hrest
    rw [encodeItems, append_assoc, hrest, length_append]
    congr 2
    omega
end

theorem decode_encodeInline_append (v : StoreValue) (rest : List UInt8) :
    decode (encodeInline v ++ rest) = .ok (.value v, (encodeInline v).length) := by
  exact decodeFuel_encodeInline v _ rest (by simp)

/-! ## Arbitrary bytes -/

/-- A read `r` from `pos` on ends; if it succeeds, it has moved forward inside the buffer, and `r'`,
with more bytes after it, is the same. -/
@[grind] def Settles {α : Type} (pos len : Nat) (r r' : Except String (α × Nat)) : Prop :=
  r ≠ .error "out of fuel" ∧ ∀ d used, r = .ok (d, used) → pos < used ∧ used ≤ len ∧ r' = r

theorem popEscapedLoop_settles (bs raw more : List UInt8) (i : Nat) :
    Settles i (i + bs.length) (popEscapedLoop bs raw i) (popEscapedLoop (bs ++ more) raw i) := by
  fun_induction popEscapedLoop bs raw i
  all_goals grind [popEscapedLoop]

theorem decodeFlat_settles (tag : UInt8) (rest more : List UInt8) :
    Settles 0 (rest.length + 1) (decodeFlat tag rest) (decodeFlat tag (rest ++ more)) := by
  have hpop := popEscapedLoop_settles rest [] more 0
  unfold decodeFlat popEscaped getPrefix GIANT_PREFIX
  repeat' split
  all_goals grind

theorem decode_settles (more : List UInt8) : ∀ fuel fuel' : Nat, fuel ≤ fuel' →
    (∀ bytes, 2 * bytes.length + 1 ≤ fuel →
      Settles 0 bytes.length (decodeFuel fuel bytes) (decodeFuel fuel' (bytes ++ more))) ∧
    ∀ bytes pos items, pos ≤ bytes.length → 2 * (bytes.length - pos) + 2 ≤ fuel →
      Settles pos bytes.length (decodeItems fuel bytes pos items)
        (decodeItems fuel' (bytes ++ more) pos items)
  | 0, _, _ => by simp
  | fuel + 1, fuel' + 1, hle => by
    obtain ⟨ihvalue, ihitems⟩ := decode_settles more fuel fuel' (by omega)
    constructor
    · intro bytes h
      cases bytes <;> grind [decodeFuel, decodeFlat_settles]
    · intro bytes pos items hpos h
      obtain ⟨hends, hok⟩ := ihvalue (bytes.drop pos) (by grind)
      simp only [decodeItems, drop_append_of_le_length hpos]
      cases ht : bytes[pos]? with
      | none => grind
      | some t =>
        rw [getElem?_append_left (by grind), ht]
        rcases hd : decodeFuel fuel (bytes.drop pos) with _ | ⟨d, used⟩
        · grind
        · rw [(hok d used hd).2.2, hd]
          cases d <;> grind

/-- **Decoding reads the front of its input**, whatever the bytes are. -/
theorem decode_reads_front (bytes more : List UInt8) :
    Settles 0 bytes.length (decode bytes) (decode (bytes ++ more)) :=
  (decode_settles more _ _ (by simp)).1 bytes le_rfl

/-! ## The codec theorem -/

theorem encodeInline_prefix_eq {r : List UInt8}
    (h : encodeInline v <+: encodeInline w ++ r) : v = w := by
  obtain ⟨t, ht⟩ := h
  have hv := decode_encodeInline_append v t
  have hw := decode_encodeInline_append w r
  grind

theorem encodeInline_inj : encodeInline v = encodeInline w ↔ v = w := by
  constructor
  · intro h
    exact encodeInline_prefix_eq (r := []) (by simp [h])
  · rintro rfl
    rfl

/-- Values are compared by their encodings. -/
instance StoreValue.decEq : DecidableEq StoreValue :=
  fun _ _ => decidable_of_iff _ encodeInline_inj

/-- **Value codec round trip.**  Whatever bytes follow, decoding an encoding succeeds, returns
the value and consumes exactly the encoding; no encoding is a proper prefix of another. -/
theorem value_codec_round_trip : (∀ (v : StoreValue) (rest : List UInt8),
      decode (encodeInline v ++ rest) = .ok (.value v, (encodeInline v).length)) ∧
    (∀ v w : StoreValue, encodeInline v <+: encodeInline w → encodeInline v = encodeInline w) := by
  refine ⟨decode_encodeInline_append, ?_⟩
  intro v w h
  have : v = w := encodeInline_prefix_eq (r := []) (by simpa using h)
  rw [this]

end Clojurust.Datalog
