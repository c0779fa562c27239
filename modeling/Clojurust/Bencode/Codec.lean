import Clojurust.Lib.Decimal
import Clojurust.Lib.ParseInt
import Clojurust.Lib.SortedTable
import Mathlib.Algebra.Group.Nat.Defs

/-!
# The bencode codec

Model of `crates/cljrs-bencode/src/lib.rs` and of the read loop of
`crates/cljrs-nrepl/src/server.rs`. A buffer with a position is a `Cursor`: the position and the
bytes from there on. A `BTreeMap` is the list of its entries in ascending key order.

* `encode` — what `encode` appends to its output buffer;
* `decode` — one value from the front of a buffer, or that the buffer ends in the middle of one;
* `Reader.read` — a chunk arrives and every complete message is taken out.

The recursion of the parser is bounded by fuel, which `decode` never uses up
(`parseValue_fuel`).
-/

namespace Clojurust

open Decimal SortedTable

inductive Bencode where
  | int (i : Int64)
  | bytes (b : List UInt8)
  | list (items : List Bencode)
  | dict (entries : List (List UInt8 × Bencode))

inductive BencodeError where
  | invalid (msg : String)
  deriving DecidableEq

namespace Bencode

/-! ## Encoding -/

/-- `i64::to_string`. -/
def i64ToString (i : Int64) : List UInt8 :=
  if i.toInt < 0 then 45 :: decimal i.toInt.natAbs else decimal i.toInt.natAbs

def encodeBytes (b : List UInt8) : List UInt8 := decimal b.length ++ 58 :: b

mutual

def encode : Bencode → List UInt8
  | int i => 105 :: (i64ToString i ++ [101])
  | bytes b => encodeBytes b
  | list items => 108 :: (encodeItems items ++ [101])
  | dict entries => 100 :: (encodeEntries entries ++ [101])

def encodeItems : List Bencode → List UInt8
  | [] => []
  | item :: items => encode item ++ encodeItems items

def encodeEntries : List (List UInt8 × Bencode) → List UInt8
  | [] => []
  | (k, val) :: entries => encodeBytes k ++ (encode val ++ encodeEntries entries)

end

mutual

/-- Dictionaries are `BTreeMap`s: their keys ascend. -/
def Ordered : Bencode → Prop
  | int _ | bytes _ => True
  | list items => OrderedItems items
  | dict entries => entries.Pairwise (fun x y => compare x.1 y.1 = .lt) ∧ OrderedEntries entries

def OrderedItems : List Bencode → Prop
  | [] => True
  | item :: items => item.Ordered ∧ OrderedItems items

def OrderedEntries : List (List UInt8 × Bencode) → Prop
  | [] => True
  | (_, val) :: entries => val.Ordered ∧ OrderedEntries entries

end

/-- A value of the source: its dictionaries are ordered and its encoding is a `Vec<u8>`, of at most
`isize::MAX` bytes. -/
structure Message where
  value : Bencode
  ordered : value.Ordered
  fits : (encode value).length < 2 ^ 63

/-- `encode_to_vec`. -/
def encodeToVec (m : Message) : List UInt8 := encode m.value

/-! ## Decoding -/

/-- The buffer ends in the middle of a value, or it is malformed. -/
inductive ParseError where
  | incomplete
  | invalid (msg : String)
  deriving DecidableEq

/-- A position in the buffer and the bytes from there on. -/
structure Cursor where
  pos : Nat
  rest : List UInt8

/-- The digits and the signs of a number in ASCII. -/
def decimalBytes : ParseInt.Alphabet UInt8 where
  digit b := if isDigit b then some (b.toNat - 48) else none
  plus := 43
  minus := 45
  plus_digit := by decide
  minus_digit := by decide

/-- `str::parse::<i64>`; the reason of a failure is not used. -/
def parseI64 (text : List UInt8) : Option Int64 :=
  (ParseInt.parseSigned decimalBytes (2 ^ 63 - 1) text).toOption.map Int64.ofInt

/-- `str::parse::<usize>`, with 64 bits. -/
def parseUsize (text : List UInt8) : Option Nat :=
  (ParseInt.parseUnsigned decimalBytes (2 ^ 64 - 1) text).toOption

/-- The loops that look for the end of a number: its text up to the byte `stop`, and what follows.
Where a sign is allowed, it is at the start. -/
def scanDigits (stop : UInt8) (msg : String) (sign : Bool) :
    List UInt8 → Except ParseError (List UInt8 × List UInt8)
  | [] => .error .incomplete
  | b :: rest =>
    if b = stop then .ok ([], rest)
    else if (b = 45 ∧ sign = true) ∨ isDigit b = true then
      match scanDigits stop msg false rest with
      | .error e => .error e
      | .ok (text, after) => .ok (b :: text, after)
    else .error (.invalid msg)

/-- The text of an integer, up to its `e`. -/
def scanInt : List UInt8 → Except ParseError (List UInt8 × List UInt8) :=
  scanDigits 101 "non-digit in integer" true

/-- The text of a length, up to its `:`. -/
def scanLength : List UInt8 → Except ParseError (List UInt8 × List UInt8) :=
  scanDigits 58 "non-digit in string length" false

/-- The cursor is behind the `i`. -/
def parseInt (c : Cursor) : Except ParseError (Bencode × Cursor) :=
  match scanInt c.rest with
  | .error e => .error e
  | .ok (text, after) =>
    if isUtf8 text = true then
      match parseI64 text with
      | some n => .ok (.int n, ⟨c.pos + text.length + 1, after⟩)
      | none => .error (.invalid "integer out of range or empty")
    else .error (.invalid "non-UTF-8 integer")

def parseBytes (c : Cursor) : Except ParseError (Bencode × Cursor) :=
  match scanLength c.rest with
  | .error e => .error e
  | .ok (text, after) =>
    match if isUtf8 text = true then parseUsize text else none with
    | none => .error (.invalid "bad string length")
    | some len =>
      let dataStart := c.pos + text.length + 1
      if 2 ^ 64 ≤ dataStart + len then .error (.invalid "string length overflow")
      else if after.length < len then .error .incomplete
      else .ok (.bytes (after.take len), ⟨dataStart + len, after.drop len⟩)

mutual

def parseValue : Nat → Cursor → Except ParseError (Bencode × Cursor)
  | 0, _ => .error .incomplete
  | fuel + 1, c =>
    match c.rest with
    | [] => .error .incomplete
    | b :: rest =>
      if b = 105 then parseInt ⟨c.pos + 1, rest⟩
      else if b = 108 then parseList fuel [] ⟨c.pos + 1, rest⟩
      else if b = 100 then parseDict fuel [] ⟨c.pos + 1, rest⟩
      else if isDigit b = true then parseBytes c
      else .error (.invalid "unexpected type marker")

/-- The loop over the items of a list. -/
def parseList : Nat → List Bencode → Cursor → Except ParseError (Bencode × Cursor)
  | 0, _, _ => .error .incomplete
  | fuel + 1, items, c =>
    if c.rest.head? = some 101 then .ok (.list items, ⟨c.pos + 1, c.rest.tail⟩)
    else
      match parseValue fuel c with
      | .error e => .error e
      | .ok (item, c') => parseList fuel (items ++ [item]) c'

/-- The loop over the entries of a dictionary. -/
def parseDict : Nat → List (List UInt8 × Bencode) → Cursor → Except ParseError (Bencode × Cursor)
  | 0, _, _ => .error .incomplete
  | fuel + 1, entries, c =>
    if c.rest.head? = some 101 then .ok (.dict entries, ⟨c.pos + 1, c.rest.tail⟩)
    else
      match parseValue fuel c with
      | .error e => .error e
      | .ok (.bytes key, c') =>
        match parseValue fuel c' with
        | .error e => .error e
        | .ok (val, c'') => parseDict fuel (insertEntry key val entries) c''
      | .ok _ => .error (.invalid "dict key must be a byte string")

end

/-- The value at a cursor: lists and values nest at most once for each byte that is left. -/
def parse (c : Cursor) : Except ParseError (Bencode × Cursor) :=
  parseValue (2 * c.rest.length + 1) c

def decode (buf : List UInt8) : Except BencodeError (Option (Bencode × Nat)) :=
  match parse ⟨0, buf⟩ with
  | .ok (v, c) => .ok (some (v, c.pos))
  | .error .incomplete => .ok none
  | .error (.invalid msg) => .error (.invalid msg)

/-! ## The read loop -/

/-- A connection: the bytes not yet decoded, the messages dispatched so far, and the error that
closed it, after which nothing is buffered or read. -/
structure Reader where
  buf : List UInt8
  messages : List Bencode
  dropped : Option BencodeError

/-- Take out every complete message that is buffered. -/
def Reader.drain : Nat → Reader → Reader
  | 0, r => r
  | fuel + 1, r =>
    match decode r.buf with
    | .ok (some (msg, consumed)) =>
      drain fuel { r with buf := r.buf.drop consumed, messages := r.messages ++ [msg] }
    | .ok none => r
    | .error e => { r with buf := [], dropped := some e }

/-- A chunk arrives. Each message takes at least one byte out of the buffer. -/
def Reader.read (r : Reader) (chunk : List UInt8) : Reader :=
  match r.dropped with
  | some _ => r
  | none =>
    let r' := { r with buf := r.buf ++ chunk }
    r'.drain (r'.buf.length + 1)

def Reader.start : Reader := ⟨[], [], none⟩

def Reader.run (chunks : List (List UInt8)) : Reader := chunks.foldl Reader.read Reader.start

end Bencode

end Clojurust
