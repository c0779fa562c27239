import Clojurust.Lib.Matching
import Clojurust.Value.Compare

/-!
# What equality looks at

Equality of values that are neither wrapped nor lazy only depends on the shape of each side: an
atom, a sequence, a queue, a map, a set or a record.

* `Atom`, `Shape`, `Value.shape` — the shape of a plain value;
* `Shape.Rel` — equality of shapes, given that of the parts; `eqPlain_iff`.
-/

namespace Clojurust

/-- A scalar up to equality: integers of both kinds are one, so are the zeros, and a decimal is its
value. -/
inductive Atom where
  | nil
  | bool (b : Bool)
  | int (n : Int)
  | double (x : F64)
  | decimal (d : ℚ)
  | ratio (r : ℚ)
  | char (c : Char)
  | str (s : String)
  | uuid (u : BitVec 128)
  | instant (ms : Int64)
  | symbol (s : Symbol)
  | keyword (k : Keyword)

inductive Shape where
  | atom (a : Atom)
  | seq (items : List Value)
  | queue (items : List Value)
  | map (m : MapValue Value Value)
  | set (s : SetValue Value)
  | record (tag : String) (fields : MapValue Value Value)

/-- Equality of shapes, by the equality of the values inside. -/
def Shape.Rel (num : Numerics) (eq : Value → Value → Bool) : Shape → Shape → Prop
  | atom a, atom b => a = b
  | seq a, seq b | queue a, queue b => List.Forall₂ (fun x y => eq x y = true) a b
  | map a, map b => a.mapsEqual ⟨eq, Value.clojureHash num, Value.cmp num⟩ eq b = true
  | set a, set b => a.setsEqual ⟨eq, Value.clojureHash num, Value.cmp num⟩ b = true
  | record tag a, record tag' b =>
    tag = tag' ∧ a.mapsEqual ⟨eq, Value.clojureHash num, Value.cmp num⟩ eq b = true
  | _, _ => False

namespace Value

/-- Neither wrapped nor lazy. -/
def isPlain : Value → Bool
  | withMeta _ _ | reduced _ | lazySeq _ _ => false
  | _ => true

/-- The shape of a plain value. -/
def shape : Value → Shape
  | bool b => .atom (.bool b)
  | long n => .atom (.int n.toInt)
  | double x => .atom (.double x.normal)
  | bigInt n => .atom (.int n)
  | bigDecimal d => .atom (.decimal d.value)
  | ratio r => .atom (.ratio r)
  | char c => .atom (.char c)
  | str s => .atom (.str s)
  | uuid u => .atom (.uuid u)
  | instant ms => .atom (.instant ms)
  | symbol s => .atom (.symbol s)
  | keyword k => .atom (.keyword k)
  | list items | vector items => .seq items
  | cons head tail => .seq (valueToSeqVec (cons head tail))
  | queue front rear => .queue (front ++ rear)
  | map m => .map m
  | set s => .set s
  | typeInstance tag fields => .record tag fields
  | _ => .atom .nil

/-- A NaN is not equal to itself. -/
def isNaN : Value → Bool
  | double x => x.isNaN
  | _ => false

variable {num : Numerics} {eq : Value → Value → Bool}

theorem itemsEqual_iff {a b : List Value} :
    itemsEqual eq a b = true ↔ List.Forall₂ (fun x y => eq x y = true) a b := by
  unfold itemsEqual
  rw [List.forall₂_iff_zip]
  simp [List.all_eq_true]

/-- **Equality of plain values is equality of their shapes.** -/
theorem eqPlain_iff {a b : Value} (ha : a.isPlain = true) (hb : b.isPlain = true)
    (hnan : a.isNaN = false) (hnan' : b.isNaN = false) :
    eqPlain num eq a b = true ↔ Shape.Rel num eq a.shape b.shape := by
  -- every pair of constructors: the scalars by their own equality, unequal kinds by computation
  cases a <;> (try cases ha) <;> cases b <;> (try cases hb) <;> first
  | exact iff_of_false Bool.false_ne_true id
  | exact iff_of_false Bool.false_ne_true Atom.noConfusion
  | (delta eqPlain; simp_all [isNaN, shape, Shape.Rel, itemsEqual_iff, valueToSeqVec,
      Int64.toInt_inj, BigDecimal.beq_iff_value, F64.beq_iff_normal])

end Value

end Clojurust
