import Clojurust.Builtins.Division
import Clojurust.Reader.Numerals
import Clojurust.Value.Builders
import Clojurust.Value.Names

/-!
# Transit

The codec of `crates/cljrsh-pods/src/transit.rs`: values as JSON in which strings double as a
language of tags, and a decoder with a cache of the names it has read.

* `Json` — documents; `Platform` — what the libraries do with doubles, instants and uuids, and
  whether the build has overflow checks;
* `encode` — a value as a document;
* `decode` — a document as a value; `decodeString`, `decodeTagged` — the language of tags.
-/

namespace Clojurust.Transit

open OpenRecursion

/-! ## Documents -/

/-- `serde_json::Number`. -/
inductive Number where
  | posInt (n : UInt64)
  | negInt (n : Int64)
  | float (x : F64)

/-- `Json::from(i64)`. -/
def Number.ofI64 (n : Int64) : Number :=
  if n.toInt < 0 then .negInt n else .posInt (UInt64.ofNat n.toInt.toNat)

def Number.asI64 : Number → Option Int64
  | posInt n => if n.toNat < 2 ^ 63 then some (Int64.ofNat n.toNat) else none
  | negInt n => some n
  | float _ => none

def Number.asF64 : Number → F64
  | posInt n => F64.ofInt n.toNat
  | negInt n => F64.ofInt n.toInt
  | float x => x

inductive Json where
  | null
  | bool (b : Bool)
  | number (n : Number)
  | string (s : String)
  | array (items : List Json)
  | object (entries : List (String × Json))

mutual

def Json.size : Json → Nat
  | .array items => 1 + sizeItems items
  | .object entries => 1 + sizeEntries entries
  | _ => 1

def sizeItems : List Json → Nat
  | [] => 0
  | item :: items => item.size + sizeItems items

def sizeEntries : List (String × Json) → Nat
  | [] => 0
  | (_, value) :: entries => value.size + sizeEntries entries

end

/-- What the libraries do, and whether the build has overflow checks. -/
structure Platform where
  overflowChecks : Bool
  /-- The text of a string with `{:?}`. -/
  debugString : String → String
  displayF64 : F64 → String
  parseF64 : String → Except String F64
  formatRfc3339Millis : Int64 → String
  parseRfc3339Millis : String → Except String Int64
  displayUuid : BitVec 128 → String
  parseUuid : String → Except String (BitVec 128)

/-! ## Encoding -/

/-- An error, or a panic. -/
inductive Failure where
  | error (message : String)
  | panicked
  deriving DecidableEq

def encodeString (s : String) : Json :=
  match s.toList with
  | '~' :: _ | '^' :: _ => .string ("~" ++ s)
  | _ => .string s

/-- `n.abs() <= 1 << 53`; the absolute value of the least `i64` overflows to itself. -/
def isSafe (p : Platform) (n : Int64) : Except Failure Bool :=
  if n = Int64.minValue then if p.overflowChecks then .error .panicked else .ok true
  else .ok (n.toInt.natAbs ≤ 2 ^ 53)

def encodeLong (p : Platform) (n : Int64) : Except Failure Json := do
  if ← isSafe p n then return .number (.ofI64 n) else return .string ("~i" ++ toString n.toInt)

/-- Neither an infinity nor a NaN. -/
def isFinite (x : F64) : Bool := x.magnitude < F64.infMagnitude

def encodeDouble (p : Platform) (x : F64) : Except Failure Json :=
  if isFinite x then .ok (.number (.float x))
  else .error (.error ("cannot transit-encode non-finite double " ++ p.displayF64 x))

/-- The entries of a map, one after the other. -/
def encodeEntries (encode : Value → Except Failure Json) :
    List (Value × Value) → Except Failure (List Json)
  | [] => .ok []
  | (key, value) :: entries => do
    let k ← encode key
    let v ← encode value
    let rest ← encodeEntries encode entries
    return k :: v :: rest

/-- The body of `encode`. -/
def encodeStep (p : Platform) (encode : Value → Except Failure Json) : Value → Except Failure Json
  | .nil => .ok .null
  | .bool b => .ok (.bool b)
  | .long n => encodeLong p n
  | .double x => encodeDouble p x
  | .str s => .ok (encodeString s)
  | .char c => .ok (encodeString (String.singleton c))
  | .keyword k => .ok (.string ("~:" ++ k.fullName))
  | .symbol s => .ok (.string ("~$" ++ s.fullName))
  | .instant ms => .ok (.string ("~t" ++ p.formatRfc3339Millis ms))
  | .uuid u => .ok (.string ("~u" ++ p.displayUuid u))
  | .vector items => do return .array (← items.mapM encode)
  | .list items => do return .array [.string "~#list", .array (← items.mapM encode)]
  | .set s => do return .array [.string "~#set", .array (← s.iter.mapM encode)]
  | .map m => do return .array (.string "^ " :: (← encodeEntries encode m.iter))
  | other => .error (.error ("cannot transit-encode a " ++ Builtins.typeName other))

def encode (p : Platform) (v : Value) : Except Failure Json :=
  fix Value.size (encodeStep p) (.error .panicked) v

/-! ## Decoding -/

/-- `str::parse::<i64>`. -/
def parseI64 (text : String) : Except ParseInt.IntError Int64 :=
  (ParseInt.parseSigned Reader.decimalChars (2 ^ 63 - 1) text.toList).map Int64.ofInt

/-- A decoded name, or the text of a tag. -/
inductive CacheEntry where
  | value (v : Value)
  | raw (s : String)

/-- A computation with the cache of the reader; errors are messages. -/
abbrev Decode := EStateM String (List CacheEntry)

/-- `checked_sub(48)`. -/
def sub48 (byte : UInt8) : Option Nat :=
  if 48 ≤ byte.toNat then some (byte.toNat - 48) else none

/-- The number of a cache code: a caret and one or two bytes, apart from the map marker. -/
def cacheCodeIndex (s : String) : Option Nat :=
  match s.toList with
  | '^' :: rest =>
    if rest = [' '] then none
    else
      match (String.ofList rest).toUTF8.data.toList with
      | [byte] => sub48 byte
      | [hi, lo] => do return (← sub48 hi) * 44 + (← sub48 lo)
      | _ => none
  | _ => none

/-- A name or a tag, of more than three bytes. -/
def cacheable (s : String) : Bool :=
  s.utf8ByteSize > 3 &&
    match s.toList with
    | '~' :: ':' :: _ | '~' :: '$' :: _ | '~' :: '#' :: _ => true
    | _ => false

def remember (entry : CacheEntry) : Decode Unit := modify (· ++ [entry])

/-- A tag at the head of an array, as such or by a cache code. -/
def resolveTag (head : String) : Decode (Option String) := do
  match head.toList with
  | '~' :: '#' :: tag =>
    if cacheable head then remember (.raw head)
    return some (String.ofList tag)
  | _ =>
    match cacheCodeIndex head with
    | none => return none
    | some idx =>
      match (← get)[idx]? with
      | some (.raw raw) =>
        match raw.toList with
        | '~' :: '#' :: tag => return some (String.ofList tag)
        | _ => return none
      | _ => return none

def orError {α : Type} (what : String) : Except String α → Decode α
  | .ok a => pure a
  | .error e => throw (what ++ e)

/-- The value of a string that is no cache code. -/
def interpret (p : Platform) (s : String) : Decode Value :=
  match s.toList with
  | '~' :: ':' :: kw => return .keyword (Keyword.parse (String.ofList kw))
  | '~' :: '$' :: sym => return .symbol (Symbol.parse (String.ofList sym))
  | '~' :: 'i' :: i =>
    match parseI64 (String.ofList i) with
    | .ok n => return .long n
    | .error e => throw ("bad ~i int: " ++ e.message)
  | '~' :: 'd' :: d => return .double (← orError "bad ~d double: " (p.parseF64 (String.ofList d)))
  | '~' :: 't' :: t => return .instant (← orError "" (p.parseRfc3339Millis (String.ofList t)))
  | '~' :: 'u' :: u => return .uuid (← orError "bad ~u uuid: " (p.parseUuid (String.ofList u)))
  | '~' :: '~' :: rest => return .str (String.ofList ('~' :: rest))
  | '~' :: '^' :: rest => return .str (String.ofList ('^' :: rest))
  | '~' :: '#' :: _ => throw ("stray transit tag " ++ p.debugString s)
  | '~' :: _ => throw ("unsupported transit encoding " ++ p.debugString s)
  | _ => return .str s

/-- Names are cached, and in the position of a key other strings, too. -/
def isCached (s : String) (asMapKey : Bool) : Bool :=
  s.utf8ByteSize > 3 &&
    match s.toList with
    | '~' :: ':' :: _ | '~' :: '$' :: _ => true
    | '~' :: _ => false
    | _ => asMapKey

def decodeUncached (p : Platform) (s : String) (asMapKey mayCache : Bool) : Decode Value := do
  let value ← interpret p s
  if mayCache && isCached s asMapKey then remember (.value value)
  return value

def decodeString (p : Platform) (s : String) (asMapKey : Bool) : Decode Value := do
  match cacheCodeIndex s with
  | none => decodeUncached p s asMapKey true
  | some idx =>
    match (← get)[idx]? with
    | some (.value v) => return v
    | some (.raw raw) => decodeUncached p raw asMapKey false
    | none => throw ("transit cache miss for " ++ p.debugString s)

/-- A handler for tags that the codec does not know. -/
abbrev TagHandler := String → Value → Option Value

section Decoding

variable (num : Numerics) (p : Platform) (handler : TagHandler)

/-- The entries of a map, two documents each, are added one after the other. -/
def decodeEntries (decode : Json → Bool → Decode Value) (asMapKey : Bool) :
    List Json → MapValue Value Value → Decode (MapValue Value Value)
  | key :: value :: entries, m => do
    let k ← decode key asMapKey
    let v ← decode value false
    decodeEntries decode asMapKey entries (m.assoc (Value.keyOps num) k v)
  | _, m => return m

/-- The members of a verbose map. -/
def decodeMembers (decode : Json → Bool → Decode Value) :
    List (String × Json) → MapValue Value Value → Decode (MapValue Value Value)
  | [], m => return m
  | (key, value) :: entries, m => do
    let k ← decodeString p key true
    let v ← decode value false
    decodeMembers decode entries (m.assoc (Value.keyOps num) k v)

def decodeItems (decode : Json → Bool → Decode Value) (items : List Json) : Decode (List Value) :=
  items.mapM fun item => decode item false

def decodeTagged (decode : Json → Bool → Decode Value) (tag : String) (value : Json) :
    Decode Value := do
  match tag, value with
  | "set", .array items =>
    let keys ← decodeItems decode items
    return .set (.hash (GrowingSet.ofList (Value.keyOps num) keys).toPersistentHashSet)
  | "set", _ => throw "transit set body must be an array"
  | "list", .array items => return .list (← decodeItems decode items)
  | "list", _ => throw "transit list body must be an array"
  | "'", value => decode value false
  | "cmap", .array items =>
    if items.length % 2 ≠ 0 then throw "transit cmap with odd entry count"
    else return .map (← decodeEntries num decode false items .empty)
  | "cmap", _ => throw "transit cmap body must be an array"
  | other, value =>
    let rep ← decode value false
    match handler other rep with
    | some v => return v
    | none => throw ("unsupported transit tag ~#" ++ other)

/-- An array: a map, a tagged value or a vector. -/
def decodeArray (decode : Json → Bool → Decode Value) (items : List Json) : Decode Value := do
  match items with
  | .string head :: rest =>
    if head = "^ " then
      if rest.length % 2 ≠ 0 then throw "transit map with odd entry count"
      else return .map (← decodeEntries num decode true rest .empty)
    else
      match ← resolveTag head, rest with
      | some tag, [value] => decodeTagged num handler decode tag value
      | _, _ => return .vector (← decodeItems decode items)
  | _ => return .vector (← decodeItems decode items)

/-- An object: one tagged value or a map. -/
def decodeObject (decode : Json → Bool → Decode Value) (entries : List (String × Json)) :
    Decode Value := do
  match entries with
  | [(key, value)] =>
    match key.toList with
    | '~' :: '#' :: tag => decodeTagged num handler decode (String.ofList tag) value
    | _ => return .map (← decodeMembers num p decode entries .empty)
  | _ => return .map (← decodeMembers num p decode entries .empty)

/-- The body of `decode_inner_h`. -/
def decodeStep (decode : Json → Bool → Decode Value) (json : Json) (asMapKey : Bool) :
    Decode Value :=
  match json with
  | .null => return .nil
  | .bool b => return .bool b
  | .number n => return n.asI64.elim (.double n.asF64) .long
  | .string s => decodeString p s asMapKey
  | .array items => decodeArray num handler decode items
  | .object entries => decodeObject num p handler decode entries

def decodeInner (json : Json) (asMapKey : Bool) : Decode Value :=
  fix Json.size (decodeStep num p handler) (fun _ => throw "") json asMapKey

def decodeWith (json : Json) : Except String Value :=
  match decodeInner num p handler json false [] with
  | .ok v _ => .ok v
  | .error e _ => .error e

/-- Without handlers no other tag is known. -/
def decode (json : Json) : Except String Value := decodeWith num p (fun _ _ => none) json

end Decoding

end Clojurust.Transit
