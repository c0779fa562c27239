import Clojurust.Datalog.CodecRoundtrip
import Clojurust.Lib.SortedTable
import Clojurust.Lib.StateExcept

/-!
# The triple store: opening, declaring attributes, transacting

Model of the write side of `crates/cljrs-datalog-store/src/lib.rs`.

* A database of the environment is a `SortedTable.Table` of byte strings, in LMDB's key order.
* A write transaction works on its own copy of the tables; the attribute caches of the `Store`
  are shared with it and are *not* part of it, as in the source.  A computation inside a
  transaction is a `Tx`: an error keeps the state it was raised in (`EStateM`).
* LMDB may refuse any call (disk full, map full, I/O).  The first refusal ends a transaction,
  so the environment's behaviour is one number: how many calls it serves first (`Fault`).
* `Call`, `Store.step`, `Store.run` — histories of `open`, `set_attr` and `transact` calls,
  successful or failed.
-/

namespace Clojurust.Datalog

open OrderCode SortedTable

abbrev Bytes := List UInt8

/-- What `Sha256::digest` returns. -/
abbrev Digest := { b : Bytes // b.length = 32 }

/-- One resolved datom. -/
structure Datom where
  e : UInt64
  a : String
  v : StoreValue
  deriving Repr, DecidableEq

/-- One transaction operation over resolved datoms. -/
inductive Op where
  | add (e : UInt64) (a : String) (v : StoreValue)
  | retract (e : UInt64) (a : String) (v : StoreValue)
  deriving Repr

def Op.attr : Op → String
  | .add _ a _ | .retract _ a _ => a

def Op.value : Op → StoreValue
  | .add _ _ v | .retract _ _ v => v

/-- Attribute properties the store enforces. -/
structure AttrProps where
  cardinalityMany : Bool := false
  refType : Bool := false
  uniqueIdentity : Bool := false
  uniqueValue : Bool := false
  deriving Repr, DecidableEq

inductive StoreError where
  | lmdb (code : Int)
  | codec (msg : String)
  | missingGiant (id : UInt64)
  deriving Repr, DecidableEq

/-! ## The environment -/

inductive Dbi where
  | eav | ave | vae | schema | metaDb | giants | giantIds
  deriving Repr, DecidableEq

/-- The tables of the environment. -/
abbrev Db := Dbi → Table Bytes Bytes

def Db.set (db : Db) (dbi : Dbi) (t : Table Bytes Bytes) : Db :=
  fun d => if d = dbi then t else db d

/-- `map_size(1 << 30)`, in bytes. -/
def MAP_SIZE : Nat := 2 ^ 30
def MDB_MAXKEYSIZE : Nat := 511
def MDB_BAD_VALSIZE : Int := -30781
def MDB_MAP_FULL : Int := -30792

/-- The store: the committed tables and the in-memory attribute caches. -/
structure Store where
  db : Db
  /-- attr name → (aid, props); loaded at open, extended on intern. -/
  attrs : Table String (UInt32 × AttrProps)
  /-- aid → attr name for decoding index keys. -/
  attrNames : Table UInt32 String

/-- A write transaction: the tables as it sees them, the store's caches, and how many more
calls the environment serves before it answers `code`. -/
structure Txn extends Store where
  served : Nat
  code : Int

/-- The environment's behaviour during one write transaction. -/
structure Fault where
  served : Nat
  code : Int

abbrev Tx := EStateM StoreError Txn

/-- Every LMDB call passes here. -/
def lmdbCall : Tx Unit := do
  let t ← get
  match t.served with
  | 0 => throw (.lmdb t.code)
  | n + 1 => set { t with served := n }

def txnGet (dbi : Dbi) (key : Bytes) : Tx (Option Bytes) := do
  lmdbCall
  let t ← get
  return (t.db dbi).get key

/-- `put`.  An environment of `MAP_SIZE` bytes cannot hold `MAP_SIZE` entries in a table; where
it fills up earlier, the refusal is the `Fault`'s. -/
def txnPut (dbi : Dbi) (key value : Bytes) : Tx Unit := do
  lmdbCall
  let t ← get
  if key.length = 0 ∨ MDB_MAXKEYSIZE < key.length then throw (.lmdb MDB_BAD_VALSIZE)
  else if MAP_SIZE ≤ (t.db dbi).size then throw (.lmdb MDB_MAP_FULL)
  else set { t with db := t.db.set dbi ((t.db dbi).put key value) }

/-- `del`; an absent key is not an error. -/
def txnDel (dbi : Dbi) (key : Bytes) : Tx Unit := do
  lmdbCall
  let t ← get
  set { t with db := t.db.set dbi ((t.db dbi).del key) }

/-! ## Keys -/

/-- `u32::to_be_bytes`. -/
def u32ToBeBytes (n : UInt32) : Bytes := beBytes 4 n.toNat

/-- `u32::from_be_bytes`. -/
def u32FromBeBytes (bs : Bytes) : UInt32 := UInt32.ofNat (ofBeBytes bs)

def eavKey (e : UInt64) (aid : UInt32) (venc : Bytes) : Bytes :=
  u64ToBeBytes e ++ (u32ToBeBytes aid ++ venc)

def aveKey (aid : UInt32) (venc : Bytes) (e : UInt64) : Bytes :=
  u32ToBeBytes aid ++ (venc ++ u64ToBeBytes e)

def vaeKey (target : UInt64) (aid : UInt32) (e : UInt64) : Bytes :=
  u64ToBeBytes target ++ (u32ToBeBytes aid ++ u64ToBeBytes e)

def META_MAX_EID : Bytes := asBytes "max-eid"
def META_NEXT_AID : Bytes := asBytes "next-aid"
def META_NEXT_GIANT : Bytes := asBytes "next-giant"

/-! ## Attributes -/

def FLAG_CARD_MANY : UInt8 := 0x01
def FLAG_REF : UInt8 := 0x02
def FLAG_UNIQUE_IDENTITY : UInt8 := 0x04
def FLAG_UNIQUE_VALUE : UInt8 := 0x08

def AttrProps.flagByte (p : AttrProps) : UInt8 :=
  (if p.cardinalityMany then FLAG_CARD_MANY else 0) ||| (if p.refType then FLAG_REF else 0) |||
    (if p.uniqueIdentity then FLAG_UNIQUE_IDENTITY else 0) |||
    (if p.uniqueValue then FLAG_UNIQUE_VALUE else 0)

def AttrProps.ofFlags (flags : UInt8) : AttrProps where
  cardinalityMany := flags &&& FLAG_CARD_MANY != 0
  refType := flags &&& FLAG_REF != 0
  uniqueIdentity := flags &&& FLAG_UNIQUE_IDENTITY != 0
  uniqueValue := flags &&& FLAG_UNIQUE_VALUE != 0

/-- The schema record of an attribute. -/
def schemaRecord (aid : UInt32) (p : AttrProps) : Bytes := u32ToBeBytes aid ++ [p.flagByte]

/-- A counter as stored: eight big-endian bytes, absent while it is zero. -/
def readCounter : Option Bytes → Tx UInt64
  | none => pure 0
  | some b => if b.length = 8 then pure (u64FromBeBytes b) else throw (.codec "bad meta counter")

def bumpCounter (key : Bytes) : Tx UInt64 := do
  let current ← readCounter (← txnGet .metaDb key)
  let next := current + 1
  txnPut .metaDb key (u64ToBeBytes next)
  return next

/-- The tail of `intern_attr`: the schema record, then both caches. -/
def storeAttr (name : String) (aid : UInt32) (props : AttrProps) : Tx (UInt32 × AttrProps) := do
  txnPut .schema (asBytes name) (schemaRecord aid props)
  let t ← get
  set { t with attrs := t.attrs.put name (aid, props), attrNames := t.attrNames.put aid name }
  return (aid, props)

def internAttr (name : String) (props : Option AttrProps) : Tx (UInt32 × AttrProps) := do
  let t ← get
  match t.attrs.get name, props with
  | some (aid, current), none => return (aid, current)
  | some (aid, _), some p => storeAttr name aid p
  | none, p =>
    let next ← bumpCounter META_NEXT_AID
    storeAttr name next.toUInt32 (p.getD {})

/-! ## Values -/

/-- The tag and the raw bytes of the values that may be giant. -/
def giantParts : StoreValue → Option (UInt8 × Bytes)
  | .str s => some (TAG_GIANT_STR, asBytes s)
  | .bytes b => some (TAG_GIANT_BYTES, b)
  | _ => none

variable (digest : Bytes → Digest)

/-- The id of a giant, allocated on first use. -/
def giantId (giantTag : UInt8) (raw : Bytes) : Tx UInt64 := do
  match ← txnGet .giantIds (digest raw).1 with
  | some existing =>
    if existing.length = 8 then return u64FromBeBytes existing else throw (.codec "bad giant id")
  | none =>
    let id ← bumpCounter META_NEXT_GIANT
    txnPut .giants (u64ToBeBytes id) (giantTag :: raw)
    txnPut .giantIds (digest raw).1 (u64ToBeBytes id)
    return id

/-- The key form of a giant. -/
def giantKey (giantTag : UInt8) (raw : Bytes) (id : UInt64) : Bytes :=
  giantTag :: (raw.take GIANT_PREFIX ++ u64ToBeBytes id)

def encodeValueForKey (v : StoreValue) : Tx Bytes :=
  if (encodeInline v).length ≤ GIANT_THRESHOLD then return encodeInline v
  else
    match giantParts v with
    | none => throw (.codec "only strings and bytes can be giant")
    | some (giantTag, raw) => do
      let id ← giantId digest giantTag raw
      return giantKey giantTag raw id

/-! ## Transactions -/

/-- All encoded values currently asserted for `(e, aid)`. -/
def entityAttrValues (e : UInt64) (aid : UInt32) : Tx (List Bytes) := do
  lmdbCall
  let t ← get
  let pfx := u64ToBeBytes e ++ u32ToBeBytes aid
  return (prefixScan pfx (t.db .eav).entries).map (fun entry => entry.1.drop pfx.length)

def insertDatom (e : UInt64) (aid : UInt32) (venc : Bytes) (v : StoreValue) : Tx Unit := do
  txnPut .eav (eavKey e aid venc) []
  txnPut .ave (aveKey aid venc e) []
  match v with
  | .ref target => txnPut .vae (vaeKey target aid e) []
  | _ => return ()

/-- The entity a reference encoding points at; references are recognised by their tag. -/
def refTarget (venc : Bytes) : Option UInt64 :=
  if venc.head? = some TAG_REF then
    match decode venc with
    | .ok (.value (.ref target), _) => some target
    | _ => none
  else none

def deleteDatom (e : UInt64) (aid : UInt32) (venc : Bytes) : Tx Unit := do
  txnDel .eav (eavKey e aid venc)
  txnDel .ave (aveKey aid venc e)
  match refTarget venc with
  | some target => txnDel .vae (vaeKey target aid e)
  | none => return ()

def deleteDatomEncoded (e : UInt64) (aid : UInt32) (venc : Bytes) (v : StoreValue) : Tx Unit := do
  txnDel .eav (eavKey e aid venc)
  txnDel .ave (aveKey aid venc e)
  match v with
  | .ref target => txnDel .vae (vaeKey target aid e)
  | _ => return ()

/-- Retract the existing values of a cardinality-one attribute. -/
def deleteDatoms (e : UInt64) (aid : UInt32) : List Bytes → Tx Unit
  | [] => return ()
  | venc :: vencs => do
    deleteDatom e aid venc
    deleteDatoms e aid vencs

/-- An add to a cardinality-one attribute first retracts any existing value for `(e, a)`. -/
def replaceExisting (e : UInt64) (aid : UInt32) (props : AttrProps) : Tx Unit :=
  if props.cardinalityMany then return ()
  else do
    let existing ← entityAttrValues e aid
    deleteDatoms e aid existing

def applyOp : Op → Tx Unit
  | .add e a v => do
    let attr ← internAttr a none
    replaceExisting e attr.1 attr.2
    let venc ← encodeValueForKey digest v
    insertDatom e attr.1 venc v
  | .retract e a v => do
    let attr ← internAttr a none
    let venc ← encodeValueForKey digest v
    deleteDatomEncoded e attr.1 venc v

def Op.maxEid (maxEid : UInt64) : Op → UInt64
  | .add e _ _ => max maxEid e
  | .retract _ _ _ => maxEid

/-- The loop of `transact`. -/
def applyOps : List Op → UInt64 → Tx UInt64
  | [], maxEid => return maxEid
  | op :: ops, maxEid => do
    applyOp digest op
    applyOps ops (op.maxEid maxEid)

/-- `max-eid`, read leniently: anything but eight bytes counts as zero. -/
def readMaxEid : Option Bytes → UInt64
  | some b => if b.length = 8 then u64FromBeBytes b else 0
  | none => 0

def transactTxn (ops : List Op) : Tx Unit := do
  lmdbCall
  let stored ← txnGet .metaDb META_MAX_EID
  let maxEid ← applyOps digest ops (readMaxEid stored)
  txnPut .metaDb META_MAX_EID (u64ToBeBytes maxEid)
  lmdbCall

def setAttrTxn (name : String) (props : AttrProps) : Tx Unit := do
  lmdbCall
  let _ ← internAttr name (some props)
  lmdbCall

/-- Run a write transaction: committed on success; on an error the tables are those from
before, while the caches stay as the transaction left them. -/
def Store.write (s : Store) (fault : Fault) (x : Tx Unit) : Except StoreError Unit × Store :=
  match x ⟨s, fault.served, fault.code⟩ with
  | .ok _ t => (.ok (), t.toStore)
  | .error err t => (.error err, ⟨s.db, t.attrs, t.attrNames⟩)

def Store.transact (s : Store) (fault : Fault) (ops : List Op) : Except StoreError Unit × Store :=
  s.write fault (transactTxn digest ops)

def Store.setAttr (s : Store) (fault : Fault) (name : String) (props : AttrProps) :
    Except StoreError Unit × Store :=
  s.write fault (setAttrTxn name props)

/-! ## Opening -/

/-- `slice.get(i..j)`. -/
def getSlice (bs : Bytes) (i j : Nat) : Option Bytes :=
  if j ≤ bs.length then some ((bs.take j).drop i) else none

/-- The schema loop of `open_with_flags`. -/
def loadAttrs : List (Bytes × Bytes) → Table String (UInt32 × AttrProps) → Table UInt32 String →
    Except StoreError (Table String (UInt32 × AttrProps) × Table UInt32 String)
  | [], attrs, attrNames => .ok (attrs, attrNames)
  | (k, v) :: entries, attrs, attrNames =>
    match fromUtf8 k with
    | none => .error (.codec "schema attr not utf8")
    | some name =>
      match getSlice v 0 4, v[4]? with
      | some aidBytes, some flags =>
        let aid := u32FromBeBytes aidBytes
        loadAttrs entries (attrs.put name (aid, AttrProps.ofFlags flags)) (attrNames.put aid name)
      | _, _ => .error (.codec "short schema entry")

/-- Open a store over the tables of an environment. -/
def openStore (db : Db) : Except StoreError Store :=
  match loadAttrs (db .schema).entries Table.empty Table.empty with
  | .error err => .error err
  | .ok (attrs, attrNames) => .ok ⟨db, attrs, attrNames⟩

/-- The store opened over a new environment. -/
def Store.create : Store := ⟨fun _ => Table.empty, Table.empty, Table.empty⟩

/-! ## Histories -/

/-- One call on the store. -/
inductive Call where
  | reopen
  | setAttr (fault : Fault) (name : String) (props : AttrProps)
  | transact (fault : Fault) (ops : List Op)

/-- The outcome of a call and the store after it. -/
def Store.call (s : Store) : Call → Except StoreError Unit × Store
  | .reopen =>
    match openStore s.db with
    | .ok s' => (.ok (), s')
    | .error err => (.error err, s)
  | .setAttr fault name props => s.setAttr fault name props
  | .transact fault ops => s.transact digest fault ops

def Store.step (s : Store) (c : Call) : Store := (s.call digest c).2

/-- The store after a history of calls on `s`. -/
def Store.run (s : Store) (calls : List Call) : Store := calls.foldl (Store.step digest) s

end Clojurust.Datalog
