import Clojurust.Builtins.Division
import Clojurust.Lib.OrderCode
import Clojurust.Net.Frame
import Clojurust.Value.HashLaws

/-!
# Length-prefixed encoding

The write side of the length-prefixed framer (`builtin_length_prefixed_encode`,
`encode_length_prefixed`, `parse_prefix_opts` of `crates/cljrs-net/src/frame.rs`).

* `parsePrefixOpts` — the configuration a map of options gives, `parsePrefixOpts_bounds`;
* `lengthHeader` — the bytes of the length, in either order; `parseLength_lengthHeader`;
* `RoundTrips` — the payloads that are encoded are decoded again, and those whose length does not
  fit the header are refused;
* `length_prefixed_round_trip_iff` — this is so exactly when every length fits the header.
-/

namespace Clojurust.Net

open Drain OrderCode Builtins List UInt64

/-! ## Options -/

def kw (name : String) : Value := .keyword ⟨none, name⟩

def defaultMaxFrame : Nat := 16 * 1024 * 1024

def parsePrefixOpts (num : Numerics) (opts : MapValue Value Value) : LengthPrefixed where
  prefixLen :=
    match opts.get (Value.keyOps num) (kw "bytes") with
    | some (.long n) => if 0 < n.toInt ∧ n.toInt ≤ 8 then n.toInt.toNat else 4
    | _ => 4
  bigEndian :=
    match opts.get (Value.keyOps num) (kw "endian") with
    | some v => !v.eq num (kw "little")
    | none => true
  maxFrame :=
    match opts.get (Value.keyOps num) (kw "max-frame") with
    | some (.long n) => if 0 < n.toInt then n.toInt.toNat else defaultMaxFrame
    | _ => defaultMaxFrame

theorem parsePrefixOpts_bounds (num : Numerics) (opts : MapValue Value Value) :
    (0 < (parsePrefixOpts num opts).prefixLen ∧ (parsePrefixOpts num opts).prefixLen ≤ 8) ∧
      (parsePrefixOpts num opts).maxFrame < 2 ^ 63 := by
  refine ⟨?_, ?_⟩
  · simp only [parsePrefixOpts]
    grind
  · simp only [parsePrefixOpts]
    split
    · rename_i n _
      have := n.toInt_lt
      split
      · omega
      · decide
    · decide

/-! ## Encoding -/

/-- `((len >> (i * 8)) & 0xFF) as u8`. -/
def byteAt (len : UInt64) (i : Nat) : UInt8 :=
  ((len >>> UInt64.ofNat (i * 8)) &&& 0xFF).toUInt8

def lengthHeader (len : UInt64) (prefixLen : Nat) (bigEndian : Bool) : List UInt8 :=
  if bigEndian then (List.range prefixLen).reverse.map (byteAt len)
  else (List.range prefixLen).map (byteAt len)

def encodeLengthPrefixed (data : List UInt8) (prefixLen : Nat) (bigEndian : Bool) : Frame :=
  bytesValue (lengthHeader (UInt64.ofNat data.length) prefixLen bigEndian ++ data)

/-- An argument of a builtin: a byte array or data. -/
inductive Arg where
  | byteArray (bytes : List Int8)
  | value (v : Value)

def Arg.typeName : Arg → String
  | .byteArray _ => "byte-array"
  | .value v => Builtins.typeName v

/-- The name of the type of an argument, empty if there is none. -/
def typeNameOf (arg : Option Arg) : String := (arg.map Arg.typeName).getD ""

def builtinLengthPrefixed (num : Numerics) (args : List Arg) : Except ValueError FramerKind :=
  match args.head? with
  | some (.value (.map opts)) => .ok (.lengthPrefixed (parsePrefixOpts num opts))
  | other => .error (.wrongType "map \x7b:bytes n\x7d" (typeNameOf other))

/-- The bytes to encode. -/
def dataOf : Option Arg → Except ValueError (List UInt8)
  | some (.byteArray bytes) => .ok (bytes.map Int8.toUInt8)
  | other => .error (.wrongType "byte-array" (typeNameOf other))

/-- The configuration to encode with; without options headers have four bytes. -/
def configOf (num : Numerics) : Option Arg → Except ValueError LengthPrefixed
  | some (.value (.map opts)) => .ok (parsePrefixOpts num opts)
  | none | some (.value .nil) => .ok ⟨4, true, defaultMaxFrame⟩
  | some other => .error (.wrongType "map \x7b:bytes n :endian :big/:little\x7d" other.typeName)

def builtinLengthPrefixedEncode (num : Numerics) (args : List Arg) : Except ValueError Frame := do
  let data ← dataOf args.head?
  let cfg ← configOf num args[1]?
  return encodeLengthPrefixed data cfg.prefixLen cfg.bigEndian

/-! ## Machine words as numbers -/

variable {n : Nat} {cfg : LengthPrefixed}

theorem byteAt_ofNat {i : Nat} (hn : n < 2 ^ 64) (hi : i < 8) :
    byteAt (ofNat n) i = UInt8.ofNat (n / 256 ^ i) := by
  have hshift : (ofNat (i * 8)).toNat % 64 = i * 8 := by
    rw [toNat_ofNat']
    omega
  have hpow : 2 ^ (i * 8) = 256 ^ i := by rw [Nat.mul_comm, Nat.pow_mul]
  have hmask : (0xFF : UInt64).toNat = 2 ^ 8 - 1 := rfl
  apply UInt8.toNat_inj.mp
  simp only [byteAt, UInt64.toNat_toUInt8, UInt64.toNat_and, UInt64.toNat_shiftRight, hshift, hmask,
    Nat.and_two_pow_sub_one_eq_mod, Nat.shiftRight_eq_div_pow, hpow]
  rw [UInt64.toNat_ofNat_of_lt' hn, Nat.mod_mod, UInt8.toNat_ofNat']

theorem toNat_shiftIn {n : UInt64} {b : UInt8} (h : n.toNat < 2 ^ 56) :
    (shiftIn n b).toNat = n.toNat * 256 + b.toNat := by
  have hb : b.toNat < 2 ^ 8 := b.toNat_lt
  have height : (8 : UInt64).toNat % 64 = 8 := rfl
  have hlow : n.toNat <<< 8 < 2 ^ 64 := by
    rw [Nat.shiftLeft_eq]
    omega
  rw [shiftIn, UInt64.toNat_or, UInt64.toNat_shiftLeft, height, UInt8.toNat_toUInt64,
    Nat.mod_eq_of_lt hlow, ← Nat.shiftLeft_add_eq_or_of_lt hb, Nat.shiftLeft_eq]

theorem toNat_foldl_shiftIn : ∀ (bs : List UInt8) (n : UInt64),
    (n.toNat + 1) * 256 ^ bs.length ≤ 2 ^ 64 →
      (bs.foldl shiftIn n).toNat = bs.foldl (fun acc b => acc * 256 + b.toNat) n.toNat
  | [], _, _ => rfl
  | b :: bs, n, h => by
    have hb : b.toNat < 256 := b.toNat_lt
    have hone : 0 < 256 ^ bs.length := Nat.pow_pos (by omega)
    rw [length_cons, pow_succ', ← Nat.mul_assoc] at h
    have hroom : n.toNat < 2 ^ 56 := by
      have := le_trans (Nat.le_mul_of_pos_right _ hone) h
      omega
    have hnext := toNat_shiftIn (b := b) hroom
    have hle : (n.toNat * 256 + b.toNat + 1) * 256 ^ bs.length ≤
        (n.toNat + 1) * 256 * 256 ^ bs.length := Nat.mul_le_mul_right _ (by omega)
    rw [foldl_cons, foldl_cons, toNat_foldl_shiftIn bs _ (by rw [hnext]; omega), hnext]

/-! ## Headers -/

theorem map_byteAt {k : Nat} (hn : n < 2 ^ 64) (hk : k ≤ 8) :
    (List.range k).reverse.map (byteAt (ofNat n)) = beBytes k n := by
  rw [beBytes_eq_map_range]
  refine map_congr_left ?_
  intro i hi
  have hi' : i < k := by simpa using hi
  exact byteAt_ofNat hn (by omega)

theorem lengthHeader_eq {k : Nat} (hn : n < 2 ^ 64) (hk : k ≤ 8) (bigEndian : Bool) :
    lengthHeader (ofNat n) k bigEndian =
      if bigEndian then beBytes k n else (beBytes k n).reverse := by
  cases bigEndian with
  | true => exact map_byteAt hn hk
  | false =>
    simp only [lengthHeader, Bool.false_eq_true, if_false]
    rw [← map_byteAt hn hk, ← map_reverse, reverse_reverse]

/-- **A length that fits its header is read back.** -/
theorem parseLength_lengthHeader (hk : cfg.prefixLen ≤ 8) (hn : n < 256 ^ cfg.prefixLen) :
    parseLength cfg (lengthHeader (ofNat n) cfg.prefixLen cfg.bigEndian) = n := by
  have hpow : 256 ^ cfg.prefixLen ≤ 2 ^ 64 := Nat.pow_le_pow_right (n := 256) (by omega) hk
  have hread : ((beBytes cfg.prefixLen n).foldl shiftIn 0).toNat = n := by
    rw [toNat_foldl_shiftIn _ _ (by simpa using hpow)]
    exact ofBeBytes_beBytes hn
  rw [lengthHeader_eq (by omega) hk, parseLength]
  grind

theorem length_lengthHeader (len : UInt64) (k : Nat) (bigEndian : Bool) :
    (lengthHeader len k bigEndian).length = k := by cases bigEndian <;> simp [lengthHeader]

/-! ## Round trips -/

/-- The payload with its header, as a message of the framer with the same configuration. -/
def message (cfg : LengthPrefixed) (hk : cfg.prefixLen ≤ 8) (payload : List UInt8)
    (hmax : payload.length ≤ cfg.maxFrame) (hfits : payload.length < 256 ^ cfg.prefixLen) :
    Message cfg where
  header := lengthHeader (UInt64.ofNat payload.length) cfg.prefixLen cfg.bigEndian
  body := payload
  header_length := length_lengthHeader _ _ _
  announced := parseLength_lengthHeader hk hfits
  within := hmax

/-- `(length-prefixed-encode payload opts)`. -/
def encode (num : Numerics) (opts : MapValue Value Value) (payload : List Int8) :
    Except ValueError Frame :=
  builtinLengthPrefixedEncode num [.byteArray payload, .value (.map opts)]

/-- The bytes of the byte arrays among some frames, one after the other. -/
def streamOf (frames : List Frame) : List UInt8 :=
  frames.flatMap fun
    | .byteArray bytes => bytes.map Int8.toUInt8
    | _ => []

/-- Payloads within the maximum frame that the encoder accepts come out of the framer with the same options,
however their encodings are cut into chunks, and payloads whose length does not fit the header are refused. -/
@[grind cases]
structure RoundTrips (decode : List UInt8 → String) (num : Numerics)
    (opts : MapValue Value Value) (payloads : List (List Int8)) : Prop where
  decoded : (∀ p ∈ payloads, p.length ≤ (parsePrefixOpts num opts).maxFrame) →
    ∀ frames, payloads.mapM (encode num opts) = .ok frames →
    ∃ kind, builtinLengthPrefixed num [.value (.map opts)] = .ok kind ∧
      ∀ chunks : List (List UInt8), chunks.flatten = streamOf frames →
        framerTask decode (Framer.new kind) (chunks.map .byteArray) =
          some (payloads.map .byteArray)
  refused : ∀ payload ∈ payloads, 256 ^ (parsePrefixOpts num opts).prefixLen ≤ payload.length →
    ∃ e, encode num opts payload = .error e

theorem encode_eq (num : Numerics) (opts : MapValue Value Value) (payload : List Int8) :
    encode num opts payload = .ok (bytesValue
      (lengthHeader (ofNat payload.length) (parsePrefixOpts num opts).prefixLen
        (parsePrefixOpts num opts).bigEndian ++ payload.map Int8.toUInt8)) := by
  have h : encode num opts payload = .ok (encodeLengthPrefixed (payload.map Int8.toUInt8)
    (parsePrefixOpts num opts).prefixLen (parsePrefixOpts num opts).bigEndian) := rfl
  rw [h, encodeLengthPrefixed, length_map]

theorem streamOf_cons (bytes : List UInt8) (frames : List Frame) :
    streamOf (bytesValue bytes :: frames) = bytes ++ streamOf frames := by
  have hback : (bytes.map UInt8.toInt8).map Int8.toUInt8 = bytes := by
    rw [map_map]
    exact map_id'' (fun b => UInt8.toUInt8_toInt8 b) bytes
  simp only [streamOf, bytesValue, flatMap_cons, hback]

theorem mapM_encode (num : Numerics) (opts : MapValue Value Value) :
    ∀ {payloads : List (List Int8)} {frames : List Frame},
      payloads.mapM (encode num opts) = .ok frames →
      streamOf frames = payloads.flatMap fun payload =>
        lengthHeader (ofNat payload.length) (parsePrefixOpts num opts).prefixLen
          (parsePrefixOpts num opts).bigEndian ++ payload.map Int8.toUInt8
  | [], frames, h => by
    cases h
    rfl
  | payload :: payloads, frames, h => by
    rw [mapM_cons, encode_eq] at h
    cases hrest : payloads.mapM (encode num opts) with
    | error e =>
      rw [hrest] at h
      cases h
    | ok =>
      rw [hrest] at h
      cases h
      rw [streamOf_cons, mapM_encode num opts hrest, flatMap_cons]

theorem map_toInt8_toUInt8 (bytes : List Int8) :
    (bytes.map Int8.toUInt8).map UInt8.toInt8 = bytes := by
  rw [map_map]
  exact map_id'' (fun b => Int8.toInt8_toUInt8 b) bytes

theorem drained_payloads (hpos : 0 < cfg.prefixLen) (hk : cfg.prefixLen ≤ 8) :
    ∀ payloads : List (List Int8), (∀ p ∈ payloads, p.length ≤ cfg.maxFrame) →
      (∀ p ∈ payloads, p.length < 256 ^ cfg.prefixLen) →
      (drained (lengthRule cfg) .header (payloads.flatMap fun payload =>
        lengthHeader (ofNat payload.length) cfg.prefixLen cfg.bigEndian ++
          payload.map Int8.toUInt8)).1 = payloads.map .byteArray
  | [], _, _ => by
    have hshort : (lengthRule cfg).cut .header [] = none := cut_header_short hpos
    rfl
  | payload :: payloads, hmax, hfits => by
    obtain ⟨hmax1, hmax⟩ := forall_mem_cons.mp hmax
    obtain ⟨hfits1, hfits⟩ := forall_mem_cons.mp hfits
    have ih := drained_payloads hpos hk payloads hmax hfits
    have hhead := drained_message hpos (message cfg hk (payload.map Int8.toUInt8)
      (by rwa [length_map]) (by rwa [length_map]))
    simp only [message, Message.bytes, length_map] at hhead
    rw [flatMap_cons, hhead, map_cons, ← ih, bytesValue, map_toInt8_toUInt8]

/-- **Encoding and decoding round-trip exactly when every length fits the header**: the encoder
refuses no payload, whatever the maximum frame. -/
theorem length_prefixed_round_trip_iff (decode : List UInt8 → String) (num : Numerics)
    (opts : MapValue Value Value) (payloads : List (List Int8)) :
    RoundTrips decode num opts payloads ↔
      ∀ p ∈ payloads, p.length < 256 ^ (parsePrefixOpts num opts).prefixLen := by
  obtain ⟨⟨hpos, hk⟩, -⟩ := parsePrefixOpts_bounds num opts
  constructor
  · intro h p hp
    by_contra hlong
    obtain ⟨e, he⟩ := h.refused p hp (Nat.not_lt.mp hlong)
    cases he
  · intro hfits
    refine ⟨?_, ?_⟩
    · intro hmax frames hframes
      refine ⟨_, rfl, ?_⟩
      intro chunks hchunks
      have hstream := hchunks.trans (mapM_encode num opts hframes)
      have hproductive : (FramerKind.lengthPrefixed (parsePrefixOpts num opts)).Productive := hpos
      rw [framerTask_chunks, feedAll_eq_feed decode hproductive, feed_lengthPrefixed decode hpos,
        hstream]
      simp only [Option.map_some, Framer.finish, Option.toList_none, append_nil]
      exact congrArg some (drained_payloads hpos hk payloads hmax hfits)
    · grind

/-- Options for headers of one byte. -/
def oneByte : MapValue Value Value := .array [(kw "bytes", .long 1)]

theorem parsePrefixOpts_oneByte (num : Numerics) :
    parsePrefixOpts num oneByte = ⟨1, true, defaultMaxFrame⟩ := rfl

/-- With headers of one byte, a payload of 255 bytes still comes back. -/
theorem length_prefixed_round_trip_iff_full :
    255 ≤ (parsePrefixOpts exactNumerics oneByte).maxFrame ∧
      RoundTrips (fun _ => "") exactNumerics oneByte [List.replicate 255 0] := by
  refine ⟨by decide, (length_prefixed_round_trip_iff (fun _ => "") exactNumerics oneByte _).mpr ?_⟩
  intro p hp
  rw [mem_singleton.mp hp, length_replicate, parsePrefixOpts_oneByte]
  decide

/-- One byte more is not refused: it is written behind a header that announces an empty body. -/
theorem long_payload_truncated : encode exactNumerics oneByte (List.replicate 256 0) =
        .ok (bytesValue (0 :: List.replicate 256 0)) ∧
      ¬ RoundTrips (fun _ => "") exactNumerics oneByte [List.replicate 256 0] := by
  refine ⟨?_, ?_⟩
  · rw [encode_eq, parsePrefixOpts_oneByte, length_replicate, map_replicate]
    rfl
  · intro h
    have hlong : 256 ^ (parsePrefixOpts exactNumerics oneByte).prefixLen ≤
        (List.replicate 256 (0 : Int8)).length := by
      rw [length_replicate, parsePrefixOpts_oneByte]
      decide
    obtain ⟨e, he⟩ := h.refused _ mem_cons_self hlong
    cases he

end Clojurust.Net
