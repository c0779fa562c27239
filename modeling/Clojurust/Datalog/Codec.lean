import Clojurust.Lib.Float64
import Clojurust.Lib.OrderCode

/-!
# The datom value codec

Model of `crates/cljrs-datalog-store/src/codec.rs`.  A byte string is a `List UInt8`, a Rust
`String` a Lean `String` (both are UTF-8 byte strings), a double its bit pattern.

* `encodeInline` — what `encode_inline` appends to its output buffer;
* `decode` — one value from the front of a byte string, with the number of bytes consumed.
  The recursion of the source is bounded by explicit structural fuel, which is never used up
  (`decode_reads_front`);
* `decode_encodeInline_append` — the round trip in front of arbitrary trailing bytes.
-/

namespace Clojurust.Datalog

open OrderCode

/-- Sixteen raw bytes (`[u8; 16]`). -/
abbrev Uuid := { b : List UInt8 // b.length = 16 }

/-- One storable datom value. -/
inductive StoreValue where
  | bool (b : Bool)
  | long (n : Int64)
  | double (d : F64)
  | instant (n : Int64)
  | str (s : String)
  | keyword (s : String)
  | uuid (b : Uuid)
  | ref (e : UInt64)
  | bytes (b : List UInt8)
  | vec (items : List StoreValue)
  deriving Repr

def TAG_BOOL : UInt8 := 0x10
def TAG_LONG : UInt8 := 0x20
def TAG_DOUBLE : UInt8 := 0x30
def TAG_INSTANT : UInt8 := 0x40
def TAG_STR : UInt8 := 0x50
def TAG_KEYWORD : UInt8 := 0x60
def TAG_UUID : UInt8 := 0x70
def TAG_REF : UInt8 := 0x80
def TAG_BYTES : UInt8 := 0x90
def TAG_VEC : UInt8 := 0xA0
/-- Vector terminator, below every element tag. -/
def TAG_VEC_END : UInt8 := 0x01
def TAG_GIANT_STR : UInt8 := 0x51
def TAG_GIANT_BYTES : UInt8 := 0x91

/-- Inline-encoding size limit before a value overflows to the giants table. -/
def GIANT_THRESHOLD : Nat := 400
/-- Raw prefix bytes kept in a giant's index key. -/
def GIANT_PREFIX : Nat := 64

/-! ## Fixed-width components -/

/-- `u64::to_be_bytes`. -/
def u64ToBeBytes (n : UInt64) : List UInt8 := beBytes 8 n.toNat

/-- `u64::from_be_bytes`. -/
def u64FromBeBytes (bs : List UInt8) : UInt64 := UInt64.ofNat (ofBeBytes bs)

def orderI64 (n : Int64) : List UInt8 := u64ToBeBytes (n.toUInt64 ^^^ Word64.signBit)

def unorderI64 (bs : List UInt8) : Int64 := ⟨u64FromBeBytes bs ^^^ Word64.signBit⟩

def orderF64 (d : F64) : List UInt8 :=
  u64ToBeBytes (if d.bits &&& Word64.signBit = 0 then d.bits ||| Word64.signBit else ~~~d.bits)

def unorderF64 (bs : List UInt8) : F64 :=
  let ordered := u64FromBeBytes bs
  ⟨if ordered &&& Word64.signBit ≠ 0 then ordered &&& ~~~Word64.signBit else ~~~ordered⟩

/-- `String::as_bytes`. -/
def asBytes (s : String) : List UInt8 := s.toUTF8.data.toList

/-- `String::from_utf8`. -/
def fromUtf8 (raw : List UInt8) : Option String := String.fromUTF8? ⟨raw.toArray⟩

/-- `slice.get(..n)`. -/
def getPrefix (bs : List UInt8) (n : Nat) : Option (List UInt8) :=
  if n ≤ bs.length then some (bs.take n) else none

/-! ## Encoding -/

/-- `push_escaped`: escape `00` as `00 01` and terminate with `00 00`. -/
def pushEscaped (raw : List UInt8) : List UInt8 := escape raw

mutual
/-- The order-preserving encoding of a value. -/
def encodeInline : StoreValue → List UInt8
  | .bool b => [TAG_BOOL, if b then 1 else 0]
  | .long n => TAG_LONG :: orderI64 n
  | .instant n => TAG_INSTANT :: orderI64 n
  | .double d => TAG_DOUBLE :: orderF64 d
  | .str s => TAG_STR :: pushEscaped (asBytes s)
  | .keyword s => TAG_KEYWORD :: pushEscaped (asBytes s)
  | .uuid b => TAG_UUID :: b.val
  | .ref e => TAG_REF :: u64ToBeBytes e
  | .bytes b => TAG_BYTES :: pushEscaped b
  | .vec items => TAG_VEC :: (encodeItems items ++ [TAG_VEC_END])
/-- The element loop of the `Vec` arm. -/
def encodeItems : List StoreValue → List UInt8
  | [] => []
  | v :: vs => encodeInline v ++ encodeItems vs
end

/-! ## Decoding -/

/-- What the front of a key decodes to: a value, or the id of a giant. -/
inductive Decoded where
  | value (v : StoreValue)
  | giant (tag : UInt8) (id : UInt64)
  deriving Repr

/-- The loop of `pop_escaped` at index `i`, on the bytes from there on. -/
def popEscapedLoop : List UInt8 → List UInt8 → Nat → Except String (List UInt8 × Nat)
  | [], _, _ => .error "unterminated escaped bytes"
  | [b], raw, i =>
    if b = 0 then .error "unterminated escape" else popEscapedLoop [] (raw ++ [b]) (i + 1)
  | b :: next :: bs, raw, i =>
    if b = 0 then
      if next = 0 then .ok (raw, i + 2)
      else if next = 1 then popEscapedLoop bs (raw ++ [0]) (i + 2)
      else .error "invalid escape"
    else popEscapedLoop (next :: bs) (raw ++ [b]) (i + 1)

def popEscaped (bs : List UInt8) : Except String (List UInt8 × Nat) := popEscapedLoop bs [] 0

/-- The arms of `decode` that do not recurse, on the tag and the bytes after it. -/
def decodeFlat (tag : UInt8) (rest : List UInt8) : Except String (Decoded × Nat) :=
  if tag = TAG_BOOL then
    match rest with
    | [] => .error "truncated bool"
    | b :: _ => .ok (.value (.bool (b != 0)), 2)
  else if tag = TAG_LONG ∨ tag = TAG_INSTANT then
    match getPrefix rest 8 with
    | none => .error "truncated long"
    | some raw =>
      .ok (.value (if tag = TAG_LONG then .long (unorderI64 raw) else .instant (unorderI64 raw)), 9)
  else if tag = TAG_DOUBLE then
    match getPrefix rest 8 with
    | none => .error "truncated double"
    | some raw => .ok (.value (.double (unorderF64 raw)), 9)
  else if tag = TAG_STR ∨ tag = TAG_KEYWORD then
    match popEscaped rest with
    | .error e => .error e
    | .ok (raw, used) =>
      match fromUtf8 raw with
      | none => .error "invalid utf8"
      | some s => .ok (.value (if tag = TAG_STR then .str s else .keyword s), 1 + used)
  else if tag = TAG_UUID then
    if h : 16 ≤ rest.length then .ok (.value (.uuid ⟨rest.take 16, by simp [h]⟩), 17)
    else .error "truncated uuid"
  else if tag = TAG_REF then
    match getPrefix rest 8 with
    | none => .error "truncated ref"
    | some raw => .ok (.value (.ref (u64FromBeBytes raw)), 9)
  else if tag = TAG_BYTES then
    match popEscaped rest with
    | .error e => .error e
    | .ok (raw, used) => .ok (.value (.bytes raw), 1 + used)
  else if tag = TAG_GIANT_STR ∨ tag = TAG_GIANT_BYTES then
    match getPrefix (rest.drop GIANT_PREFIX) 8 with
    | none => .error "truncated giant"
    | some raw => .ok (.giant tag (u64FromBeBytes raw), 1 + GIANT_PREFIX + 8)
  else .error "unknown value tag"

mutual
/-- `decode` with structural fuel. -/
def decodeFuel : Nat → List UInt8 → Except String (Decoded × Nat)
  | 0, _ => .error "out of fuel"
  | _ + 1, [] => .error "empty value encoding"
  | fuel + 1, tag :: rest =>
    if tag = TAG_VEC then decodeItems fuel (tag :: rest) 1 [] else decodeFlat tag rest
/-- The element loop of the `Vec` arm, at position `pos` with the items read so far. -/
def decodeItems : Nat → List UInt8 → Nat → List StoreValue → Except String (Decoded × Nat)
  | 0, _, _, _ => .error "out of fuel"
  | fuel + 1, bytes, pos, items =>
    match bytes[pos]? with
    | none => .error "unterminated vector encoding"
    | some t =>
      if t = TAG_VEC_END then .ok (.value (.vec items), pos + 1)
      else
        match decodeFuel fuel (bytes.drop pos) with
        | .error e => .error e
        | .ok (.value v, used) => decodeItems fuel bytes (pos + used) (items ++ [v])
        | .ok (.giant _ _, _) => .error "giant inside vector encoding"
end

/-- Decode one value from the front of `bytes`. -/
def decode (bytes : List UInt8) : Except String (Decoded × Nat) :=
  decodeFuel (2 * bytes.length + 1) bytes

end Clojurust.Datalog
