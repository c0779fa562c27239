import Clojurust.Datalog.Store

/-!
# The triple store: reading

Model of the read side of `crates/cljrs-datalog-store/src/lib.rs`: `search`, `count`, `slice`
and `count_range`.  Reads run against the committed tables; LMDB's reads are taken as served.
-/

namespace Clojurust.Datalog

open OrderCode SortedTable

/-! ## Value comparison -/

mutual
/-- The derived `PartialEq` of `StoreValue`: doubles compare by IEEE `==`. -/
def StoreValue.partialEq : StoreValue → StoreValue → Bool
  | .bool x, .bool y | .long x, .long y => x == y
  | .double x, .double y => x.beq y
  | .instant x, .instant y | .str x, .str y | .keyword x, .keyword y => x == y
  | .uuid x, .uuid y => x.val == y.val
  | .ref x, .ref y | .bytes x, .bytes y => x == y
  | .vec xs, .vec ys => partialEqItems xs ys
  | _, _ => false
def StoreValue.partialEqItems : List StoreValue → List StoreValue → Bool
  | [], [] => true
  | x :: xs, y :: ys => x.partialEq y && partialEqItems xs ys
  | _, _ => false
end

/-! ## Decoding index entries -/

/-- Apply a fallible function along a list, up to the first failure. -/
def mapOk {α β ε : Type} (f : α → Except ε β) : List α → Except ε (List β)
  | [] => .ok []
  | x :: xs =>
    match f x with
    | .error err => .error err
    | .ok y =>
      match mapOk f xs with
      | .error err => .error err
      | .ok ys => .ok (y :: ys)

/-- `decode_value`: giants are resolved through the giants table. -/
def decodeValue (db : Db) (bytes : Bytes) : Except StoreError (StoreValue × Nat) :=
  match decode bytes with
  | .error msg => .error (.codec msg)
  | .ok (.value v, used) => .ok (v, used)
  | .ok (.giant tag id, used) =>
    match (db .giants).get (u64ToBeBytes id) with
    | none => .error (.missingGiant id)
    | some [] => .error (.codec "empty giant")
    | some (_ :: raw) =>
      if tag = TAG_GIANT_STR then
        match fromUtf8 raw with
        | none => .error (.codec "giant not utf8")
        | some s => .ok (.str s, used)
      else .ok (.bytes raw, used)

def Store.lookupAid (s : Store) (name : String) : Option UInt32 := (s.attrs.get name).map Prod.fst

def Store.attrProps (s : Store) (name : String) : Option AttrProps := (s.attrs.get name).map Prod.snd

def Store.attrName (s : Store) (aid : UInt32) : Except StoreError String :=
  match s.attrNames.get aid with
  | some name => .ok name
  | none => .error (.codec "unknown aid in index")

/-- Index selector for range scans. -/
inductive Index where
  | eav | ave | vae
  deriving Repr, DecidableEq

def Index.dbi : Index → Dbi
  | .eav => .eav
  | .ave => .ave
  | .vae => .vae

def Store.decodeEav (s : Store) (k : Bytes) : Except StoreError Datom :=
  match getSlice k 0 8, getSlice k 8 12 with
  | some e, some aid =>
    match decodeValue s.db (k.drop 12) with
    | .error err => .error err
    | .ok (v, _) =>
      match s.attrName (u32FromBeBytes aid) with
      | .error err => .error err
      | .ok a => .ok ⟨u64FromBeBytes e, a, v⟩
  | _, _ => .error (.codec "short eav key")

def Store.decodeAve (s : Store) (k : Bytes) : Except StoreError Datom :=
  match getSlice k 0 4 with
  | none => .error (.codec "short ave key")
  | some aid =>
    match decodeValue s.db (k.drop 4) with
    | .error err => .error err
    | .ok (v, used) =>
      match getSlice k (4 + used) (4 + used + 8) with
      | none => .error (.codec "short ave key")
      | some e =>
        match s.attrName (u32FromBeBytes aid) with
        | .error err => .error err
        | .ok a => .ok ⟨u64FromBeBytes e, a, v⟩

/-- The tail of a `vae` key, for a target already known. -/
def Store.decodeVaeAt (s : Store) (target : UInt64) (k : Bytes) : Except StoreError Datom :=
  match getSlice k 8 12, getSlice k 12 20 with
  | some aid, some e =>
    match s.attrName (u32FromBeBytes aid) with
    | .error err => .error err
    | .ok a => .ok ⟨u64FromBeBytes e, a, .ref target⟩
  | _, _ => .error (.codec "short vae key")

def Store.decodeVae (s : Store) (k : Bytes) : Except StoreError Datom :=
  match getSlice k 0 8 with
  | none => .error (.codec "short vae key")
  | some target => s.decodeVaeAt (u64FromBeBytes target) k

def Store.decodeIndexEntry (s : Store) : Index → Bytes → Except StoreError Datom
  | .eav, k => s.decodeEav k
  | .ave, k => s.decodeAve k
  | .vae, k => s.decodeVae k

/-! ## Search -/

variable (digest : Bytes → Digest)

/-- Encode a value for lookup without allocating a new giant: an oversized value that was
never stored gets the id 0, which is never allocated. -/
def encodeValueReadonly (db : Db) (v : StoreValue) : Except StoreError Bytes :=
  if (encodeInline v).length ≤ GIANT_THRESHOLD then .ok (encodeInline v)
  else
    match giantParts v with
    | none => .error (.codec "only strings and bytes can be giant")
    | some (giantTag, raw) =>
      match (db .giantIds).get (digest raw).1 with
      | none => .ok (giantKey giantTag raw 0)
      | some existing =>
        if existing.length = 8 then .ok (giantKey giantTag raw (u64FromBeBytes existing))
        else .error (.codec "bad giant id")

/-- `range(dbi, low, None)`. -/
def rangeFrom (low : Option Bytes) (t : Table Bytes Bytes) : List (Bytes × Bytes) :=
  match low with
  | none => t.entries
  | some low => seek low t.entries

/-- Walk a range while its keys start with `pfx`. -/
def scanKeys (low : Option Bytes) (pfx : Bytes) (t : Table Bytes Bytes) : List Bytes :=
  ((rangeFrom low t).takeWhile (fun entry => pfx.isPrefixOf entry.1)).map Prod.fst

def Store.scanEav (s : Store) (pfx : Bytes) : Except StoreError (List Datom) :=
  let low := if pfx.isEmpty then none else some pfx
  mapOk s.decodeEav (scanKeys low pfx (s.db .eav))

def Store.scanAve (s : Store) (pfx : Bytes) : Except StoreError (List Datom) :=
  mapOk s.decodeAve (scanKeys (some pfx) pfx (s.db .ave))

def Store.scanVae (s : Store) (target : UInt64) : Except StoreError (List Datom) :=
  let pfx := u64ToBeBytes target
  mapOk (s.decodeVaeAt target) (scanKeys (some pfx) pfx (s.db .vae))

/-- `out.retain(|d| &d.v == want)`. -/
def retainEq (want : StoreValue) (out : Except StoreError (List Datom)) :
    Except StoreError (List Datom) :=
  out.map (fun ds => ds.filter (fun d => d.v.partialEq want))

/-- The encoding of an optional value. -/
def encodeOptReadonly (db : Db) : Option StoreValue → Except StoreError (Option Bytes)
  | none => .ok none
  | some v => (encodeValueReadonly digest db v).map some

/-- The index selection of `search`, with the attribute and the value resolved. -/
def Store.searchIndex (s : Store) (e : Option UInt64) (aid : Option UInt32) (v : Option StoreValue)
    (venc : Option Bytes) : Except StoreError (List Datom) :=
  match e, aid with
  | some e, some aid => s.scanEav (u64ToBeBytes e ++ (u32ToBeBytes aid ++ venc.getD []))
  | some e, none =>
    match v with
    | some want => retainEq want (s.scanEav (u64ToBeBytes e))
    | none => s.scanEav (u64ToBeBytes e)
  | none, some aid => s.scanAve (u32ToBeBytes aid ++ venc.getD [])
  | none, none =>
    match v with
    | some (.ref target) => s.scanVae target
    | some want => retainEq want (s.scanEav [])
    | none => s.scanEav []

/-- Datoms matching the pattern; `none` components are wildcards. -/
def Store.search (s : Store) (e : Option UInt64) (a : Option String) (v : Option StoreValue) :
    Except StoreError (List Datom) :=
  match a with
  | none =>
    match encodeOptReadonly digest s.db v with
    | .error err => .error err
    | .ok venc => s.searchIndex e none v venc
  | some name =>
    match s.lookupAid name with
    | none => .ok []
    | some aid =>
      match encodeOptReadonly digest s.db v with
      | .error err => .error err
      | .ok venc => s.searchIndex e (some aid) v venc

/-! ## Counting -/

/-- The `while` loop of `prefix_successor`, on the reversed string. -/
def prefixSuccessorLoop : Bytes → Option Bytes
  | [] => none
  | last :: succ => if last = 0xFF then prefixSuccessorLoop succ else some ((last + 1) :: succ)

/-- The smallest byte string greater than every string with this prefix, or `none` when the
prefix is all `FF`. -/
def prefixSuccessor (pfx : Bytes) : Option Bytes := (prefixSuccessorLoop pfx.reverse).map List.reverse

/-- `count_below`: the rank of the first key that is not below `key`. -/
def countBelow (t : Table Bytes Bytes) (key : Bytes) : Nat :=
  (t.entries.takeWhile (fun entry => compare entry.1 key == .lt)).length

def countAll (t : Table Bytes Bytes) : Nat := t.entries.length

def countPrefix (t : Table Bytes Bytes) (pfx : Bytes) : Nat :=
  let start := countBelow t pfx
  match prefixSuccessor pfx with
  | some succ => countBelow t succ - start
  | none => countAll t - start

/-- Append the encoding of a value, when there is one, and count the prefix. -/
def Store.countPattern (s : Store) (dbi : Dbi) (pfx : Bytes) (v : Option StoreValue) :
    Except StoreError Nat :=
  match encodeOptReadonly digest s.db v with
  | .error err => .error err
  | .ok venc => .ok (countPrefix (s.db dbi) (pfx ++ venc.getD []))

/-- Count of the datoms matching the pattern. -/
def Store.count (s : Store) (e : Option UInt64) (a : Option String) (v : Option StoreValue) :
    Except StoreError Nat :=
  match e, a, v with
  | some e, none, none => .ok (countPrefix (s.db .eav) (u64ToBeBytes e))
  | some e, some name, v =>
    match s.lookupAid name with
    | none => .ok 0
    | some aid => s.countPattern digest .eav (u64ToBeBytes e ++ u32ToBeBytes aid) v
  | none, some name, v =>
    match s.lookupAid name with
    | none => .ok 0
    | some aid => s.countPattern digest .ave (u32ToBeBytes aid) v
  | none, none, some (.ref target) => .ok (countPrefix (s.db .vae) (u64ToBeBytes target))
  | none, none, none => .ok (countAll (s.db .eav))
  | e, a, v => (s.search digest e a v).map List.length

/-! ## Slices -/

/-- A partial-datom range bound; a missing tail means ± infinity. -/
structure Bound where
  e : Option UInt64 := none
  a : Option String := none
  v : Option StoreValue := none
  closed : Bool := true
  deriving Repr

/-- Encode a bound's components into a key prefix; `ok none` when it names an unknown
attribute. -/
def Store.boundPrefix (s : Store) (index : Index) (b : Bound) : Except StoreError (Option Bytes) :=
  match index with
  | .eav =>
    match b.e, b.a, b.v with
    | some e, some name, v =>
      match s.lookupAid name with
      | none => .ok none
      | some aid =>
        match encodeOptReadonly digest s.db v with
        | .error err => .error err
        | .ok venc => .ok (some (u64ToBeBytes e ++ (u32ToBeBytes aid ++ venc.getD [])))
    | some _, none, some _ => .error (.codec "eav bound has v without a")
    | some e, none, none => .ok (some (u64ToBeBytes e))
    | none, none, none => .ok (some [])
    | none, _, _ => .error (.codec "eav bound has a/v without e")
  | .ave =>
    match b.a, b.v, b.e with
    | some name, v, e =>
      match s.lookupAid name with
      | none => .ok none
      | some aid =>
        match v, e with
        | some v, e =>
          match encodeValueReadonly digest s.db v with
          | .error err => .error err
          | .ok venc =>
            .ok (some (u32ToBeBytes aid ++ (venc ++ (e.map u64ToBeBytes).getD [])))
        | none, some _ => .error (.codec "ave bound has e without v")
        | none, none => .ok (some (u32ToBeBytes aid))
    | none, none, none => .ok (some [])
    | none, _, _ => .error (.codec "ave bound has v/e without a")
  | .vae =>
    match b.v with
    | some (.ref target) =>
      match b.a, b.e with
      | some name, e =>
        match s.lookupAid name with
        | none => .ok none
        | some aid =>
          .ok (some (u64ToBeBytes target ++ (u32ToBeBytes aid ++ (e.map u64ToBeBytes).getD [])))
      | none, some _ => .error (.codec "vae bound has e without a")
      | none, none => .ok (some (u64ToBeBytes target))
    | some _ => .error (.codec "vae bound v must be a ref")
    | none =>
      if b.a.isSome ∨ b.e.isSome then .error (.codec "vae bound has a/e without v")
      else .ok (some [])

/-- The byte range of a bound pair, `[lo, hi)`; `none` when it is provably empty. -/
def rangeOfPrefixes (loPrefix : Bytes) (loClosed : Bool) (hiPrefix : Bytes) (hiClosed : Bool) :
    Option (Bytes × Option Bytes) :=
  let lo := if loClosed ∨ loPrefix = [] then some loPrefix else prefixSuccessor loPrefix
  let hi := if hiPrefix = [] then none
    else if hiClosed then prefixSuccessor hiPrefix else some hiPrefix
  match lo, hi with
  | none, _ => none
  | some lo, none => some (lo, none)
  | some lo, some hi => if compare lo hi = .lt then some (lo, some hi) else none

def Store.resolveRange (s : Store) (index : Index) (low high : Bound) :
    Except StoreError (Option (Bytes × Option Bytes)) :=
  match s.boundPrefix digest index low with
  | .error err => .error err
  | .ok none => .ok none
  | .ok (some lo) =>
    match s.boundPrefix digest index high with
    | .error err => .error err
    | .ok none => .ok none
    | .ok (some hi) => .ok (rangeOfPrefixes lo low.closed hi high.closed)

/-- Is the key at or beyond the exclusive upper end? -/
def beyond (hi : Option Bytes) (k : Bytes) : Bool :=
  match hi with
  | none => false
  | some hi => compare k hi != .lt

/-- The keys before the cursor position of `hi`, or all of them. -/
def keysBefore (t : Table Bytes Bytes) : Option Bytes → List Bytes
  | none => t.keys
  | some hi => t.keys.takeWhile (fun k => compare k hi == .lt)

/-- The keys a slice visits: ascending from `lo` up to `hi`, or descending from the last key
below `hi` down to `lo`. -/
def sliceKeys (t : Table Bytes Bytes) (lo : Bytes) (hi : Option Bytes) (reverse : Bool) :
    List Bytes :=
  if reverse then (keysBefore t hi).reverse.takeWhile (fun k => compare k lo != .lt)
  else
    let start := if lo.isEmpty then none else some lo
    ((rangeFrom start t).map Prod.fst).takeWhile (fun k => !beyond hi k)

/-- Cut at `limit`. -/
def takeLimit {α : Type} (limit : Option Nat) (l : List α) : List α :=
  match limit with
  | none => l
  | some n => l.take n

/-- Ordered datoms within an index range given by partial-datom bounds. -/
def Store.slice (s : Store) (index : Index) (low high : Bound) (limit : Option Nat)
    (reverse : Bool) : Except StoreError (List Datom) :=
  if limit = some 0 then .ok []
  else
    match s.resolveRange digest index low high with
    | .error err => .error err
    | .ok none => .ok []
    | .ok (some (lo, hi)) =>
      mapOk (s.decodeIndexEntry index) (takeLimit limit (sliceKeys (s.db index.dbi) lo hi reverse))

/-- The number of keys before an exclusive upper end. -/
def endRank (t : Table Bytes Bytes) : Option Bytes → Nat
  | some hi => countBelow t hi
  | none => countAll t

def Store.countRange (s : Store) (index : Index) (low high : Bound) : Except StoreError Nat :=
  match s.resolveRange digest index low high with
  | .error err => .error err
  | .ok none => .ok 0
  | .ok (some (lo, hi)) =>
    let t := s.db index.dbi
    let start := if lo.isEmpty then 0 else countBelow t lo
    .ok (endRank t hi - start)

end Clojurust.Datalog
