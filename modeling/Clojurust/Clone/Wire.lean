import Clojurust.Value.Builders

/-!
# Structured clone

What crosses the boundary between isolates (`crates/cljrs-value/src/clone.rs`): `serialize` takes a
value of one isolate apart, `deserialize` builds it anew in another one.

* `Live` — a value of an isolate: data, lazy seqs with what their thunks give, and leaves that
  cannot leave the isolate;
* `SerializedValue`, `serialize`, `deserialize`;
* `Live.any` — some part, at any depth, metadata and keys included, has a property;
* `Live.Shows` — the data that a live value is.
-/

namespace Clojurust.Clone

open Value

/-! ## Live values -/

/-- What holds state or code of its isolate. -/
inductive Unshareable where
  | resource
  | nativeObject
  | matcher
  | fn
  | macroFn
  | boundFn
  | nativeFunction
  | protocolFn
  | multiFn
  | atom
  | volatile
  | promise
  | future
  | agent
  | namespaceRef
  | protocol
  | transientMap
  | transientSet
  | transientVector
  | pendingDelay

/-- The name in the error of `serialize`. -/
def Unshareable.typeName : Unshareable → String
  | resource => "resource"
  | nativeObject => "native-object"
  | matcher => "matcher"
  | fn | macroFn | boundFn | nativeFunction | protocolFn | multiFn => "fn"
  | atom => "atom"
  | volatile => "volatile"
  | promise => "promise"
  | future => "future"
  | agent => "agent"
  | namespaceRef => "namespace"
  | protocol => "protocol"
  | transientMap => "transient-map"
  | transientSet => "transient-set"
  | transientVector => "transient-vector"
  | pendingDelay => "delay"

inductive MapKind where
  | array
  | hash
  | sorted
  | sortedBy
  deriving DecidableEq

inductive SetKind where
  | hash
  | sorted
  | sortedBy
  deriving DecidableEq

def mapKind {κ ν : Type} : MapValue κ ν → MapKind
  | .array _ => .array
  | .hash _ => .hash
  | .sorted _ => .sorted
  | .sortedBy _ => .sortedBy

def setKind {κ : Type} : SetValue κ → SetKind
  | .hash _ => .hash
  | .sorted _ => .sorted
  | .sortedBy _ => .sortedBy

/-- A value without parts. -/
abbrev Scalar := {v : Value // v.isScalar = true}

/-- A value of an isolate, as `serialize` sees it: maps and sets by their kind and their entries in
the order of iteration, lazy seqs by what their thunk gives when they are realised. -/
inductive Live where
  | scalar (s : Scalar)
  | list (items : List Live)
  | vector (items : List Live)
  | map (kind : MapKind) (entries : List (Live × Live))
  | set (kind : SetKind) (items : List Live)
  | queue (items : List Live)
  | cons (head tail : Live)
  | typeInstance (typeTag : String) (fields : List (Live × Live))
  | lazySeq (cell : Nat) (realized : Live)
  /-- A lazy seq whose thunk fails. -/
  | failedSeq (cell : Nat) (message : String)
  | forcedDelay (v : Live)
  | withMeta (inner metadata : Live)
  | reduced (inner : Live)
  | leaf (kind : Unshareable)

/-! ## The wire form -/

inductive SerializedValue where
  | scalar (s : Scalar)
  | list (items : List SerializedValue)
  | vector (items : List SerializedValue)
  | arrayMap (pairs : List (SerializedValue × SerializedValue))
  | hashMap (pairs : List (SerializedValue × SerializedValue))
  | sortedMap (pairs : List (SerializedValue × SerializedValue))
  | hashSet (items : List SerializedValue)
  | sortedSet (items : List SerializedValue)
  | queue (items : List SerializedValue)
  | cons (head tail : SerializedValue)
  | typeInstance (typeTag : String) (fields : List (SerializedValue × SerializedValue))
  | withMeta (value metadata : SerializedValue)
  | reduced (inner : SerializedValue)

inductive CloneError where
  | notShareable (typeName : String)
  | disconnected
  deriving DecidableEq

/-- The comparator of a map cannot cross, so that map crosses as a plain one. -/
def serializedMap (pairs : List (SerializedValue × SerializedValue)) : MapKind → SerializedValue
  | .array => .arrayMap pairs
  | .hash => .hashMap pairs
  | .sorted => .sortedMap pairs
  | .sortedBy => .arrayMap pairs

def serializedSet (items : List SerializedValue) : SetKind → SerializedValue
  | .hash => .hashSet items
  | .sorted => .sortedSet items
  | .sortedBy => .hashSet items

mutual

def serialize : Live → Except CloneError SerializedValue
  | .withMeta inner metadata => do
    let value ← serialize inner
    let metadata ← serialize metadata
    return .withMeta value metadata
  | .reduced inner => do return .reduced (← serialize inner)
  | .scalar s => .ok (.scalar s)
  | .list items => do return .list (← serializeAll items)
  | .vector items => do return .vector (← serializeAll items)
  | .map kind entries => do return serializedMap (← serializePairs entries) kind
  | .set kind items => do return serializedSet (← serializeAll items) kind
  | .queue items => do return .queue (← serializeAll items)
  | .cons head tail => do
    let head ← serialize head
    let tail ← serialize tail
    return .cons head tail
  | .typeInstance typeTag fields => do return .typeInstance typeTag (← serializePairs fields)
  | .lazySeq _ realized => serialize realized
  -- a thunk that fails is realised to `nil`
  | .failedSeq _ _ => .ok (.scalar ⟨nil, rfl⟩)
  | .forcedDelay v => serialize v
  | .leaf kind => .error (.notShareable kind.typeName)

def serializeAll : List Live → Except CloneError (List SerializedValue)
  | [] => .ok []
  | item :: items => do
    let item ← serialize item
    let items ← serializeAll items
    return item :: items

/-- `serialize_map_pairs`: of two errors in one entry, the one of the key. -/
def serializePairs :
    List (Live × Live) → Except CloneError (List (SerializedValue × SerializedValue))
  | [] => .ok []
  | (key, value) :: entries =>
    match serialize key, serialize value with
    | .ok k, .ok v => do return (k, v) :: (← serializePairs entries)
    | .error e, _ | _, .error e => .error e

end

section Deserialize

variable (num : Numerics)

/-- `SortedMap::from_pairs`. -/
def sortedFromPairs (pairs : List (Value × Value)) : Tree (Value × Value) :=
  pairs.foldl (fun t pair => t.insert (fun entry => pair.1.cmp num entry.1) pair) .leaf

/-- `SortedSet::conj`, from the empty set on. -/
def sortedFromItems (items : List Value) : Tree Value :=
  items.foldl (fun t item => t.insert (item.cmp num) item) .leaf

mutual

def deserialize : SerializedValue → Value
  | .withMeta value metadata => .withMeta (deserialize value) (deserialize metadata)
  | .reduced inner => .reduced (deserialize inner)
  | .scalar s => s.1
  | .list items => .list (deserializeAll items)
  | .vector items => .vector (deserializeAll items)
  | .arrayMap pairs | .hashMap pairs => .map (.fromPairs (keyOps num) (deserializePairs pairs))
  | .sortedMap pairs => .map (.sorted (sortedFromPairs num (deserializePairs pairs)))
  | .hashSet items =>
    .set (.hash (GrowingSet.ofList (keyOps num) (deserializeAll items)).toPersistentHashSet)
  | .sortedSet items => .set (.sorted (sortedFromItems num (deserializeAll items)))
  -- items are added at the rear of the empty queue
  | .queue items => .queue [] (deserializeAll items)
  | .cons head tail => .cons (deserialize head) (deserialize tail)
  | .typeInstance typeTag fields =>
    .typeInstance typeTag (.fromPairs (keyOps num) (deserializePairs fields))

def deserializeAll : List SerializedValue → List Value
  | [] => []
  | item :: items => deserialize item :: deserializeAll items

def deserializePairs : List (SerializedValue × SerializedValue) → List (Value × Value)
  | [] => []
  | (key, value) :: pairs => (deserialize key, deserialize value) :: deserializePairs pairs

end

end Deserialize

/-! ## Parts and data of a live value -/

section Any

variable (p : Live → Bool)

mutual

/-- The value or some part of it has the property, metadata and keys included. -/
def Live.any : Live → Bool
  | .list items => p (.list items) || anyItem items
  | .vector items => p (.vector items) || anyItem items
  | .map kind entries => p (.map kind entries) || anyEntry entries
  | .set kind items => p (.set kind items) || anyItem items
  | .queue items => p (.queue items) || anyItem items
  | .cons head tail => p (.cons head tail) || head.any || tail.any
  | .typeInstance typeTag fields => p (.typeInstance typeTag fields) || anyEntry fields
  | .lazySeq cell realized => p (.lazySeq cell realized) || realized.any
  | .forcedDelay v => p (.forcedDelay v) || v.any
  | .withMeta inner metadata => p (.withMeta inner metadata) || inner.any || metadata.any
  | .reduced inner => p (.reduced inner) || inner.any
  | .scalar s => p (.scalar s)
  | .failedSeq cell message => p (.failedSeq cell message)
  | .leaf kind => p (.leaf kind)

def anyItem : List Live → Bool
  | [] => false
  | item :: items => item.any || anyItem items

def anyEntry : List (Live × Live) → Bool
  | [] => false
  | (key, value) :: entries => key.any || value.any || anyEntry entries

end

end Any

def Live.isLeaf : Live → Bool
  | .leaf _ => true
  | _ => false

def Live.isFailed : Live → Bool
  | .failedSeq _ _ => true
  | _ => false

mutual

/-- The live value is this data, with all lazy seqs realised. -/
def Live.Shows : Live → Value → Prop
  | .scalar s, v => v = s.1
  | .list items, .list vs | .vector items, .vector vs => ShowsAll items vs
  | .map kind entries, .map m => mapKind m = kind ∧ ShowsPairs entries m.iter
  | .set kind items, .set s => setKind s = kind ∧ ShowsAll items s.iter
  | .queue items, .queue front rear => ShowsAll items (front ++ rear)
  | .cons head tail, .cons head' tail' => head.Shows head' ∧ tail.Shows tail'
  | .typeInstance typeTag fields, .typeInstance typeTag' m =>
    typeTag = typeTag' ∧ ShowsPairs fields m.iter
  | .lazySeq cell realized, .lazySeq cell' realized' => cell = cell' ∧ realized.Shows realized'
  | .withMeta inner metadata, .withMeta inner' metadata' =>
    inner.Shows inner' ∧ metadata.Shows metadata'
  | .reduced inner, .reduced inner' => inner.Shows inner'
  | _, _ => False

def ShowsAll : List Live → List Value → Prop
  | [], [] => True
  | item :: items, v :: vs => item.Shows v ∧ ShowsAll items vs
  | _, _ => False

def ShowsPairs : List (Live × Live) → List (Value × Value) → Prop
  | [], [] => True
  | (key, value) :: entries, (k, v) :: pairs =>
    key.Shows k ∧ value.Shows v ∧ ShowsPairs entries pairs
  | _, _ => False

end

end Clojurust.Clone
