import Clojurust.Lib.OpenRecursion
import Clojurust.Value.Basic

/-!
# Hash, order and equality of values

The three comparisons of `crates/cljrs-value/src/value.rs`. Each is a body that calls itself on
parts of its arguments, closed by `OpenRecursion.fix`.

* `clojureHash`, `cmp`, `eq` — `clojure_hash`, `Ord::cmp`, `PartialEq::eq`;
* `clojureHash_eq`, `cmp_eq`, `eq_eq` — their recursion equations.
-/

namespace Clojurust

open OpenRecursion

namespace Value

/-! ## Hash -/

section Hash

variable (num : Numerics)

/-- The hash of a sequence of items, given theirs. -/
def hashOrdered (hash : Value → UInt32) (items : List Value) : UInt32 :=
  items.foldl (fun h item => hashCombineOrdered h (hash item)) 1

/-- The hash of the entries of a map, given those of keys and values. -/
def hashEntries (hash : Value → UInt32) (entries : List (Value × Value)) : UInt32 :=
  entries.foldl (fun h entry =>
    hashCombineUnordered h (hashCombineOrdered (hash entry.1) (hash entry.2))) 0

/-- The body of `clojure_hash`. -/
def hashStep (hash : Value → UInt32) : Value → UInt32
  | withMeta inner _ | reduced inner => hash inner
  | nil => 0
  | bool b => if b then 1231 else 1237
  | long n => hashI64 n
  | double x => hashDouble x
  | bigInt n => hashBigInt n
  | char c => c.val
  | str s => hashString s
  | keyword k => hashString k.display
  | symbol s => hashString s.versionedName
  | uuid u => hashU128 u
  | instant ms => hashI64 ms
  | list items | vector items => hashOrdered hash items
  | map m => hashEntries hash m.iter
  | set s => s.iter.foldl (fun h key => hashCombineUnordered h (hash key)) 0
  | queue front rear => hashOrdered hash (front ++ rear)
  | bigDecimal d => hashString (num.display d)
  | ratio r => hashString (displayRatio r)
  | lazySeq _ realized => hash realized
  | cons head tail => hashOrdered hash (valueToSeqVec (cons head tail))
  | typeInstance typeTag fields =>
    hashCombineOrdered (hashString typeTag) (hashEntries hash fields.iter)

def clojureHash (v : Value) : UInt32 := fix size (hashStep num) 0 v

variable {num}

variable {f g : Value → UInt32}

theorem hashOrdered_congr {items : List Value}
    (h : ∀ x ∈ items, f x = g x) : hashOrdered f items = hashOrdered g items := by
  refine List.foldl_ext _ _ _ ?_
  grind

theorem hashStep_decreasing : Decreasing size (hashStep num) := by
  intro f g v h
  have hchild : ∀ c ∈ v.children, f c = g c := fun c hc => h c (size_lt_of_mem hc)
  have hmap : ∀ m : MapValue Value Value, (∀ c ∈ m.members, f c = g c) →
      hashEntries f m.iter = hashEntries g m.iter := by
    intro m hm
    refine List.foldl_ext _ _ _ ?_
    intro acc entry hentry
    have hmem := MapValue.mem_members hentry
    rw [hm _ hmem.1, hm _ hmem.2]
  cases v with
  | list | vector | queue => exact hashOrdered_congr hchild
  | cons => exact hashOrdered_congr (fun x hx => h x (size_lt_of_mem_valueToSeqVec hx))
  | map m => exact hmap m hchild
  | typeInstance typeTag fields =>
    simp only [hashStep]
    rw [hmap fields hchild]
  | set s =>
    refine List.foldl_ext _ _ _ ?_
    intro acc key hkey
    rw [hchild key (SetValue.mem_members hkey)]
  | withMeta inner | reduced inner => exact hchild inner (by simp [children])
  | lazySeq cell realized => exact hchild realized (by simp [children])
  | _ => rfl

theorem clojureHash_eq (v : Value) : v.clojureHash num = hashStep num (clojureHash num) v :=
  fix_eq hashStep_decreasing v

end Hash

/-! ## Order -/

section Order

variable (num : Numerics)

/-- `f64::MAX`. -/
def f64Max : F64 := ⟨0x7FEFFFFFFFFFFFFF⟩

/-- Decimals by value, else by their text. -/
def cmpDecimal (a b : BigDecimal) : Ordering :=
  (a.partialCmp b).getD (compare (num.display a) (num.display b))

/-- A double against a decimal: infinities and NaNs are no decimals. -/
def cmpDoubleDecimal (a : F64) (b : BigDecimal) : Ordering :=
  match num.decimalOfF64 a with
  | some ad => cmpDecimal num ad b
  | none =>
    if a.isNaN then .gt
    else if a.isNeg && !a.isZero then .lt
    else .gt

def cmpDecimalDouble (a : BigDecimal) (b : F64) : Ordering :=
  match num.decimalOfF64 b with
  | some bd => cmpDecimal num a bd
  | none =>
    if b.isNaN then .lt
    else if b.isNeg && !b.isZero then .gt
    else .lt

/-- A ratio against a decimal, by way of a double. -/
def cmpRatioDecimal (a : ℚ) (b : BigDecimal) : Ordering :=
  match num.decimalOfF64 ((num.ratioToF64 a).getD f64Max) with
  | some ad => cmpDecimal num ad b
  | none => .gt

def cmpDecimalRatio (a : BigDecimal) (b : ℚ) : Ordering :=
  match num.decimalOfF64 ((num.ratioToF64 b).getD f64Max) with
  | some bd => cmpDecimal num a bd
  | none => .lt

/-- Namespace first, none before any, then the name. -/
def cmpNsName (nsA : Option String) (nameA : String) (nsB : Option String) (nameB : String) :
    Ordering :=
  match nsA, nsB with
  | none, none => compare nameA nameB
  | none, some _ => .lt
  | some _, none => .gt
  | some a, some b => (compare a b).then (compare nameA nameB)

/-- Item by item. -/
def iterCmp (cmp : Value → Value → Ordering) : List Value → List Value → Ordering
  | [], [] => .eq
  | [], _ :: _ => .lt
  | _ :: _, [] => .gt
  | x :: xs, y :: ys =>
    match cmp x y with
    | .eq => iterCmp cmp xs ys
    | c => c

/-- The order of the kinds of values. -/
def typeDiscriminant : Value → Nat
  | withMeta inner _ | reduced inner => inner.typeDiscriminant
  | nil => 0
  | bool _ => 1
  | long _ | double _ | bigInt _ | bigDecimal _ | ratio _ => 2
  | char _ => 3
  | str _ => 4
  | symbol _ => 5
  | keyword _ => 6
  | list _ => 7
  | vector _ => 8
  | map _ => 9
  | set _ => 10
  | queue _ _ => 11
  | lazySeq _ _ => 12
  | cons _ _ => 13
  | typeInstance _ _ => 28
  | uuid _ => 38
  | instant _ => 44

/-- The comparison of values without metadata. -/
def cmpPlain (cmp : Value → Value → Ordering) : Value → Value → Ordering
  | nil, nil => .eq
  | bool a, bool b | long a, long b => compare a b
  | double a, double b => a.totalCmp b
  | bigInt a, bigInt b => compare a b
  | bigDecimal a, bigDecimal b => cmpDecimal num a b
  | ratio a, ratio b => compare a b
  | long a, double b => (F64.ofInt a.toInt).totalCmp b
  | double a, long b => a.totalCmp (F64.ofInt b.toInt)
  | long a, bigInt b => compare a.toInt b
  | bigInt a, long b => compare a b.toInt
  | long a, ratio b => compare (a.toInt : ℚ) b
  | ratio a, long b => compare a (b.toInt : ℚ)
  | bigInt a, ratio b => compare (a : ℚ) b
  | ratio a, bigInt b => compare a (b : ℚ)
  | double a, bigInt b => a.totalCmp ((num.bigIntToF64 b).getD f64Max)
  | bigInt a, double b => ((num.bigIntToF64 a).getD f64Max).totalCmp b
  | double a, ratio b => a.totalCmp ((num.ratioToF64 b).getD f64Max)
  | ratio a, double b => ((num.ratioToF64 a).getD f64Max).totalCmp b
  | long a, bigDecimal b => cmpDecimal num (.ofInt a.toInt) b
  | bigDecimal a, long b => cmpDecimal num a (.ofInt b.toInt)
  | double a, bigDecimal b => cmpDoubleDecimal num a b
  | bigDecimal a, double b => cmpDecimalDouble num a b
  | bigInt a, bigDecimal b => cmpDecimal num (.ofInt a) b
  | bigDecimal a, bigInt b => cmpDecimal num a (.ofInt b)
  | ratio a, bigDecimal b => cmpRatioDecimal num a b
  | bigDecimal a, ratio b => cmpDecimalRatio num a b
  | char a, char b | str a, str b | instant a, instant b => compare a b
  | symbol a, symbol b | keyword a, keyword b => cmpNsName a.ns a.name b.ns b.name
  | vector a, vector b | list a, list b => iterCmp cmp a b
  | set a, set b | map a, map b => compare a.count b.count
  | a, b => compare a.typeDiscriminant b.typeDiscriminant

def isMeta : Value → Bool
  | withMeta _ _ => true
  | _ => false

def unwrapMeta : Value → Value
  | withMeta inner _ => inner.unwrapMeta
  | v => v

/-- The body of `Ord::cmp`. -/
def cmpStep (cmp : Value → Value → Ordering) (self other : Value) : Ordering :=
  if self.isMeta || other.isMeta then cmp self.unwrapMeta other.unwrapMeta
  else cmpPlain num cmp self other

/-- The size of both arguments of a comparison. -/
def pairSize (p : Value × Value) : Nat := p.1.size + p.2.size

def cmp (self other : Value) : Ordering :=
  fix pairSize (fun f p => cmpStep num (fun x y => f (x, y)) p.1 p.2) .eq (self, other)

variable {num}

variable {f g : Value → Value → Ordering}

theorem iterCmp_congr : ∀ {xs ys : List Value},
    (∀ x ∈ xs, ∀ y ∈ ys, f x y = g x y) → iterCmp f xs ys = iterCmp g xs ys
  | [], [], _ | [], _ :: _, _ | _ :: _, [], _ => rfl
  | x :: xs, y :: ys, h => by
    have hrest : iterCmp f xs ys = iterCmp g xs ys := iterCmp_congr (fun x' hx' y' hy' =>
      h x' (.tail _ hx') y' (.tail _ hy'))
    simp only [iterCmp, h x List.mem_cons_self y (.head _), hrest]

theorem cmpPlain_congr {a b : Value} (h : ∀ x ∈ a.children, ∀ y ∈ b.children, f x y = g x y) :
    cmpPlain num f a b = cmpPlain num g a b := by
  unfold cmpPlain
  split <;> first | rfl | exact iterCmp_congr h

theorem size_unwrapMeta_le (v : Value) : v.unwrapMeta.size ≤ v.size := by
  fun_induction unwrapMeta v with
  | case1 inner metadata ih => exact ih.trans (by simp [size])
  | case2 => exact Nat.le_refl _

theorem size_unwrapMeta_lt {v : Value} (h : v.isMeta = true) : v.unwrapMeta.size < v.size := by
  cases v with
  | withMeta inner =>
    have := size_unwrapMeta_le inner
    simp only [unwrapMeta, size]
    omega
  | _ => cases h

theorem cmpStep_decreasing :
    Decreasing pairSize (fun f p => cmpStep num (fun x y => f (x, y)) p.1 p.2) := by
  rintro f g ⟨a, b⟩ h
  simp only [pairSize] at h
  simp only [cmpStep]
  by_cases hmeta : (a.isMeta || b.isMeta) = true
  · rw [if_pos hmeta, if_pos hmeta]
    refine h (a.unwrapMeta, b.unwrapMeta) ?_
    have ha := size_unwrapMeta_le a
    have hb := size_unwrapMeta_le b
    rcases Bool.or_eq_true_iff.mp hmeta with hmeta | hmeta
    all_goals
      have := size_unwrapMeta_lt hmeta
      simp only
      omega
  · rw [if_neg hmeta, if_neg hmeta]
    refine cmpPlain_congr ?_
    intro x hx y hy
    exact h (x, y) (Nat.add_lt_add (size_lt_of_mem hx) (size_lt_of_mem hy))

theorem cmp_eq (a b : Value) : a.cmp num b = cmpStep num (cmp num) a b :=
  fix_eq cmpStep_decreasing (a, b)

end Order

/-! ## Equality -/

section Equality

variable (num : Numerics)

/-- Both lists have the same length and equal items. -/
def itemsEqual (eq : Value → Value → Bool) (a b : List Value) : Bool :=
  a.length == b.length && (a.zip b).all (fun p => eq p.1 p.2)

/-- Two lazy seqs in one cell. -/
def sameCell : Value → Value → Bool
  | lazySeq cell _, lazySeq cell' _ => cell == cell'
  | _, _ => false

/-- The comparison of values that are neither wrapped nor lazy. -/
def eqPlain (eq : Value → Value → Bool) : Value → Value → Bool
  | nil, nil => true
  | bool a, bool b | long a, long b => a == b
  | long a, bigInt b => a.toInt == b
  | bigInt a, long b => a == b.toInt
  | bigInt a, bigInt b => a == b
  | double a, double b => a.beq b
  | long _, double _ | double _, long _ => false
  | bigDecimal a, bigDecimal b => a.beq b
  | ratio a, ratio b | char a, char b | str a, str b | symbol a, symbol b | keyword a, keyword b =>
    a == b
  | list a, list b | vector a, vector b => itemsEqual eq a b
  | set a, set b => a.setsEqual ⟨eq, clojureHash num, cmp num⟩ b
  | queue front rear, queue front' rear' => itemsEqual eq (front ++ rear) (front' ++ rear')
  | map a, map b => a.mapsEqual ⟨eq, clojureHash num, cmp num⟩ eq b
  | list a, vector b | vector a, list b => itemsEqual eq a b
  | cons head tail, b => itemsEqual eq (valueToSeqVec (cons head tail)) b.valueToSeqVec
  | a, cons head tail => itemsEqual eq a.valueToSeqVec (valueToSeqVec (cons head tail))
  | uuid a, uuid b | instant a, instant b => a == b
  | typeInstance tag fields, typeInstance tag' fields' =>
    tag == tag' && fields.mapsEqual ⟨eq, clojureHash num, cmp num⟩ eq fields'
  | _, _ => false

/-- The body of `PartialEq::eq`. -/
def eqStep (eq : Value → Value → Bool) (self other : Value) : Bool :=
  match self, other with
  | withMeta inner _, _ => eq inner other
  | _, withMeta inner _ => eq self inner
  | reduced inner, _ => eq inner other
  | _, reduced inner => eq self inner
  | lazySeq _ realized, _ =>
    -- the same cell is equal without a comparison
    if sameCell self other then true
    -- a lazy seq that realises to nil equals nil and every empty sequence
    else if eq realized nil && other.isSequential then other.valueToSeqVec.isEmpty
    else eq realized other
  | _, lazySeq _ realized =>
    if eq realized nil && self.isSequential then self.valueToSeqVec.isEmpty
    else eq self realized
  | _, _ => eqPlain num eq self other

def eq (self other : Value) : Bool :=
  fix pairSize (fun f p => eqStep num (fun x y => f (x, y)) p.1 p.2) false (self, other)

variable {num}

variable {f g : Value → Value → Bool}

theorem itemsEqual_congr {a b : List Value}
    (h : ∀ x ∈ a, ∀ y ∈ b, f x y = g x y) : itemsEqual f a b = itemsEqual g a b := by
  refine congrArg _ (all_congr_of_mem ?_)
  intro p hp
  have hmem := List.of_mem_zip hp
  exact h p.1 hmem.1 p.2 hmem.2

theorem eqPlain_congr {a b : Value} (h : ∀ x y, x.size < a.size → y.size < b.size → f x y = g x y)
    (h' : ∀ x y, x.size < b.size → y.size < a.size → f x y = g x y) :
    eqPlain num f a b = eqPlain num g a b := by
  have hitems : ∀ x ∈ a.valueToSeqVec, ∀ y ∈ b.valueToSeqVec, f x y = g x y := fun x hx y hy =>
    h x y (size_lt_of_mem_valueToSeqVec hx) (size_lt_of_mem_valueToSeqVec hy)
  have hchildren : ∀ x ∈ a.children, ∀ y ∈ b.children, f x y = g x y := fun x hx y hy =>
    h x y (size_lt_of_mem hx) (size_lt_of_mem hy)
  have hmembers : ∀ x ∈ b.children, ∀ y ∈ a.children, f x y = g x y := fun x hx y hy =>
    h' x y (size_lt_of_mem hx) (size_lt_of_mem hy)
  unfold eqPlain
  split <;> first
    | rfl
    | exact itemsEqual_congr hitems
    | exact itemsEqual_congr hchildren
    | exact SetValue.setsEqual_congr hmembers
    | exact MapValue.mapsEqual_congr hmembers
    | exact congrArg _ (MapValue.mapsEqual_congr hmembers)

theorem eqStep_congr {a b : Value} (h : ∀ x y, x.size + y.size < a.size + b.size → f x y = g x y) :
    eqStep num f a b = eqStep num g a b := by
  unfold eqStep
  split
  iterate 4 exact h _ _ (by simp [size])
  · have hb := size_pos b
    rw [h _ nil (by simp only [size]; omega), h _ b (by simp [size])]
  · have ha := size_pos a
    rw [h _ nil (by simp only [size]; omega), h a _ (by simp [size])]
  · exact eqPlain_congr (fun x y hx hy => h x y (by omega)) (fun x y hx hy => h x y (by omega))

theorem eqStep_decreasing :
    Decreasing pairSize (fun f p => eqStep num (fun x y => f (x, y)) p.1 p.2) :=
  fun _ _ _ h => eqStep_congr (fun x y hxy => h (x, y) hxy)

theorem eq_eq (a b : Value) : a.eq num b = eqStep num (eq num) a b :=
  fix_eq eqStep_decreasing (a, b)

end Equality

end Value

end Clojurust
