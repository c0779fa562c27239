import Clojurust.Value.Equivalence

/-!
# Equal values have equal hashes

* `Shape.hash` — the hash of a plain value by its shape, `clojureHash_shape`;
* `Ordinary` — a class of values closed under parts, without NaNs and without an empty sequence beside
  a lazy seq that realises to `nil`, where equal decimals print alike and the sorted collections are
  lawful;
* `Ordinary.regular`, `Ordinary.hash_eq` — it is regular, and its equal values have equal hashes.
-/

namespace Clojurust

open Matching List Value

/-! ## Hashes of shapes -/

/-- The hash of a scalar, decimals apart. -/
def Atom.hash : Atom → UInt32
  | nil => 0
  | bool b => if b then 1231 else 1237
  | int n => hashBigInt n
  | double x => hashDouble x
  | decimal _ => 0
  | ratio r => hashString (displayRatio r)
  | char c => c.val
  | str s => hashString s
  | uuid u => hashU128 u
  | instant ms => hashI64 ms
  | symbol s => hashString s.versionedName
  | keyword k => hashString k.display

/-- The hash of a shape, given those of the values inside. -/
def Shape.hash (hash : Value → UInt32) : Shape → UInt32
  | atom a => a.hash
  | seq items | queue items => Value.hashOrdered hash items
  | map m => Value.hashEntries hash m.iter
  | set s => s.iter.foldl (fun h key => hashCombineUnordered h (hash key)) 0
  | record tag m => hashCombineOrdered (hashString tag) (Value.hashEntries hash m.iter)

namespace Value

variable {num : Numerics}

def isDecimal : Value → Bool
  | bigDecimal _ => true
  | _ => false

theorem clojureHash_shape {v : Value} (hplain : v.isPlain = true) (hdec : v.isDecimal = false) :
    v.clojureHash num = v.shape.hash (clojureHash num) := by
  rw [clojureHash_eq]
  cases v with
  | long n => exact (hashBigInt_toInt n).symm
  | double x => exact (hashDouble_normal x).symm
  | bigDecimal d => cases hdec
  | withMeta | reduced | lazySeq => cases hplain
  | _ => rfl

theorem clojureHash_core (v : Value) : v.core.clojureHash num = v.clojureHash num := by
  fun_induction core v with
  | case1 inner metadata ih => rw [ih, clojureHash_eq (withMeta inner metadata)]; rfl
  | case2 inner ih => rw [ih, clojureHash_eq (reduced inner)]; rfl
  | case3 cell realized ih => rw [ih, clojureHash_eq (lazySeq cell realized)]; rfl
  | case4 => rfl

end Value

/-! ## Hashes and equality of shapes -/

theorem foldl_unordered_perm {α β : Type} {f : α → UInt32} {g : β → UInt32} {l : List α}
    {l' : List β} (h : (l.map f).Perm (l'.map g)) :
    l.foldl (fun acc x => hashCombineUnordered acc (f x)) 0 =
      l'.foldl (fun acc x => hashCombineUnordered acc (g x)) 0 := by
  have hfold : ∀ {γ : Type} (t : γ → UInt32) (m : List γ),
      m.foldl (fun acc x => hashCombineUnordered acc (t x)) 0 =
        (m.map t).foldl hashCombineUnordered 0 := by
    intro γ t m
    rw [foldl_map]
  rw [hfold f l, hfold g l']
  have : RightCommutative hashCombineUnordered := ⟨fun a b c => by
    simp only [hashCombineUnordered]
    grind⟩
  exact h.foldl_eq 0

namespace Shape

variable {num : Numerics} {K E : Set Value} (hsub : K ⊆ E) (hequiv : EquivOn (eq num) E)
  {hash : Value → UInt32} (hhash : ∀ x ∈ E, ∀ y ∈ E, x.eq num y = true → hash x = hash y)

include hhash in
theorem hashOrdered_eq : ∀ {l l' : List Value} (acc : UInt32), (∀ x ∈ l, x ∈ E) → (∀ x ∈ l', x ∈ E) →
    List.Forall₂ (fun x y => x.eq num y = true) l l' →
    l.foldl (fun h x => hashCombineOrdered h (hash x)) acc =
      l'.foldl (fun h x => hashCombineOrdered h (hash x)) acc
  | [], [], _, _, _, _ => rfl
  | x :: l, y :: l', acc, hl, hl', h => by
    simp only [forall_mem_cons] at hl hl'
    obtain ⟨hxy, hrest⟩ := List.forall₂_cons.mp h
    simp only [foldl_cons]
    rw [hhash x hl.1 y hl'.1 hxy]
    exact hashOrdered_eq _ hl.2 hl'.2 hrest

include hsub hequiv hhash

theorem hashEntries_eq {m m' : MapValue Value Value} (hm : m.Lawful (keyOps num) K)
    (hm' : m'.Lawful (keyOps num) K) (hE : ∀ e ∈ m.iter, e.1 ∈ K ∧ e.2 ∈ E)
    (hE' : ∀ e ∈ m'.iter, e.1 ∈ K ∧ e.2 ∈ E)
    (h : m.mapsEqual (keyOps num) (eq num) m' = true) :
    hashEntries hash m.iter = hashEntries hash m'.iter := by
  have hkeys : EquivOn (keyOps num).eq K := hequiv.mono hsub
  refine foldl_unordered_perm ((MapValue.matches_of_mapsEqual hkeys hm hm'
    (fun e he => (hE e he).1) (fun e he => (hE' e he).1) h).perm_map ?_)
  rintro e he e' he' ⟨hkey, hvalue⟩
  rw [hhash _ (hsub (hE' e' he').1) _ (hsub (hE e he).1) hkey,
    hhash _ (hE' e' he').2 _ (hE e he).2 hvalue]

theorem hash_eq_of_rel {s t : Shape} (hs : s.Within num K E) (ht : t.Within num K E)
    (h : Rel num (eq num) s t) : s.hash hash = t.hash hash := by
  cases s <;> cases t <;> try exact h.elim
  case atom.atom => exact congrArg Atom.hash h
  case seq.seq => exact hashOrdered_eq hhash 1 hs ht h
  case queue.queue => exact hashOrdered_eq hhash 1 hs ht h
  case map.map => exact hashEntries_eq hsub hequiv hhash hs.1 ht.1 hs.2 ht.2 h
  case set.set =>
    have hkeys : EquivOn (keyOps num).eq K := hequiv.mono hsub
    refine foldl_unordered_perm
      ((SetValue.matches_of_setsEqual hkeys hs.1 ht.1 hs.2 ht.2 h).perm_map ?_)
    intro x hx y hy hyx
    exact (hhash _ (hsub (ht.2 y hy)) _ (hsub (hs.2 x hx)) hyx).symm
  case record.record tag m tag' m' =>
    simp only [Shape.hash]
    rw [h.1, hashEntries_eq hsub hequiv hhash hs.1 ht.1 hs.2 ht.2 h.2]

end Shape

/-! ## Ordinary classes -/

namespace Value

/-- A class of values in which equality and hash agree. -/
@[grind cases]
structure Ordinary (num : Numerics) (D : Set Value) : Prop where
  children : ∀ v ∈ D, ∀ c ∈ v.children, c ∈ D
  notNaN : ∀ v ∈ D, v.isNaN = false
  /-- A cell holds one value. -/
  cells : ∀ cell x y, lazySeq cell x ∈ D → lazySeq cell y ∈ D → x = y
  /-- Beside a lazy seq that realises to `nil`, a sequence without items is equal to `nil`. -/
  notNil : ∀ cell x, lazySeq cell x ∈ D → x.eq num nil = true → ∀ v ∈ D, v.isBlank = true →
    v.eq num nil = true
  /-- Decimals that are equal print alike, as far as the hash can tell. -/
  decimals : ∀ d d', bigDecimal d ∈ D → bigDecimal d' ∈ D → d.beq d' = true →
    hashString (num.display d) = hashString (num.display d')
  maps : ∀ m, map m ∈ D → m.Built (keyOps num) (keysOf D)
  records : ∀ tag m, typeInstance tag m ∈ D → m.Built (keyOps num) (keysOf D)
  sets : ∀ s, set s ∈ D → s.Built (keyOps num) (keysOf D)

/-- The values of a class up to a size. -/
def upTo (D : Set Value) (n : Nat) : Set Value := {v | v ∈ D ∧ v.size ≤ n}

theorem mem_children_of_keys {v x : Value} (h : x ∈ v.keys) : x ∈ v.children := by
  cases v with
  | map | typeInstance =>
    obtain ⟨e, he, rfl⟩ := mem_map.mp h
    exact (MapValue.mem_members he).1
  | set s => exact SetValue.mem_members h
  | _ => cases h

section Ordinary

variable {num : Numerics} {D : Set Value} (hD : Ordinary num D)

include hD

variable {n : Nat}

theorem Ordinary.child_upTo {v c : Value} (hv : v ∈ upTo D (n + 1)) (hc : c ∈ v.children) :
    c ∈ upTo D n := by
  have := size_lt_of_mem hc
  have := hv.2
  exact ⟨hD.children v hv.1 c hc, by omega⟩

theorem Ordinary.regular_succ (hreg : Regular num (upTo D n))
    (hhash : ∀ x ∈ upTo D n, ∀ y ∈ upTo D n, x.eq num y = true →
      x.clojureHash num = y.clojureHash num) : Regular num (upTo D (n + 1)) := by
  have hops : (keyOps num).Sound (upTo D n) := ⟨hreg.equivOn, hhash⟩
  have hkeys : keysOf (upTo D (n + 1)) ⊆ upTo D n := by
    rintro x ⟨v, hv, hx⟩
    exact hD.child_upTo hv (mem_children_of_keys hx)
  have hsub : keysOf (upTo D (n + 1)) ⊆ keysOf D := by
    rintro x ⟨v, hv, hx⟩
    exact ⟨v, hv.1, hx⟩
  refine ⟨⟨?_, fun v hv => hD.notNaN v hv.1, fun c x y hx hy => hD.cells c x y hx.1 hy.1,
    ?_, ?_, ?_⟩, fun c x hx hnil v hv => hD.notNil c x hx.1 hnil v hv.1⟩
  · intro v hv c hc
    have := hD.child_upTo hv hc
    exact ⟨this.1, by have := this.2; omega⟩
  · intro m hm
    exact MapValue.Built.lawful hops hkeys ((hD.maps m hm.1).mono hsub)
      (fun x hx => hD.child_upTo hm hx)
  · intro tag m hm
    exact MapValue.Built.lawful hops hkeys ((hD.records tag m hm.1).mono hsub)
      (fun x hx => hD.child_upTo hm hx)
  · intro s hs
    exact SetValue.Built.lawful hops hkeys ((hD.sets s hs.1).mono hsub)
      (fun x hx => hD.child_upTo hs hx)

omit hD in
theorem isDecimal_of_rel {eq : Value → Value → Bool} {a b : Value}
    (h : Shape.Rel num eq a.shape b.shape) : a.isDecimal = b.isDecimal := by
  by_cases ha : a.isDecimal = true
  · cases a with
    | bigDecimal d => cases b <;> first | rfl | cases h
    | _ => cases ha
  · by_cases hb : b.isDecimal = true
    · cases b with
      | bigDecimal d => cases a <;> first | rfl | cases h
      | _ => cases hb
    · grind

theorem Ordinary.hash_succ (hreg : Regular num (upTo D (n + 1)))
    (hequiv : EquivOn (eq num) (upTo D n))
    (hhash : ∀ x ∈ upTo D n, ∀ y ∈ upTo D n, x.eq num y = true →
      x.clojureHash num = y.clojureHash num) :
    ∀ x ∈ upTo D (n + 1), ∀ y ∈ upTo D (n + 1), x.eq num y = true →
      x.clojureHash num = y.clojureHash num := by
  intro a ha b hb h
  have ha' := hreg.core_mem ha
  have hb' := hreg.core_mem hb
  have hrel := (hreg.eq_iff_shape ha hb).mp h
  have hwithin : ∀ v ∈ upTo D (n + 1),
      v.shape.Within num (keysOf (upTo D (n + 1)) ∩ upTo D n) (upTo D n) := by
    intro v hv
    have := hv.2
    exact hreg.shape_within hv (fun x hx hlt => ⟨hx.1, by omega⟩)
  rw [← clojureHash_core a, ← clojureHash_core b]
  by_cases hdec : a.core.isDecimal = true
  · have hdec' := isDecimal_of_rel hrel ▸ hdec
    generalize a.core = a' at *
    generalize b.core = b' at *
    cases a' with
    | bigDecimal d =>
      cases b' with
      | bigDecimal d' =>
        have hvalue : d.value = d'.value := by simpa [shape, Shape.Rel] using hrel
        exact hD.decimals d d' ha'.1 hb'.1 (BigDecimal.beq_iff_value.mpr hvalue)
      | _ => cases hdec'
    | _ => cases hdec
  · rw [Bool.not_eq_true] at hdec
    have hdec' := isDecimal_of_rel hrel ▸ hdec
    rw [clojureHash_shape (isPlain_core a) hdec, clojureHash_shape (isPlain_core b) hdec']
    exact Shape.hash_eq_of_rel Set.inter_subset_right hequiv hhash (hwithin _ ha') (hwithin _ hb') hrel

theorem Ordinary.upTo_regular : ∀ n, Regular num (upTo D n) ∧
    ∀ x ∈ upTo D n, ∀ y ∈ upTo D n, x.eq num y = true → x.clojureHash num = y.clojureHash num
  | 0 => by
    have hempty : ∀ v, v ∉ upTo D 0 := by
      intro v hv
      have := size_pos v
      have := hv.2
      omega
    exact ⟨⟨⟨fun v hv => (hempty v hv).elim, fun v hv => (hempty v hv).elim,
      fun _ _ _ hx => (hempty _ hx).elim, fun _ hm => (hempty _ hm).elim,
      fun _ _ hm => (hempty _ hm).elim, fun _ hs => (hempty _ hs).elim⟩,
      fun _ _ hx => (hempty _ hx).elim⟩, fun x hx => (hempty x hx).elim⟩
  | n + 1 => by
    obtain ⟨hreg, hhash⟩ := Ordinary.upTo_regular n
    have hreg' := hD.regular_succ hreg hhash
    exact ⟨hreg', hD.hash_succ hreg' hreg.equivOn hhash⟩

/-- **Equal values of an ordinary class have equal hashes.** -/
theorem Ordinary.hash_eq {a b : Value} (ha : a ∈ D) (hb : b ∈ D) (h : a.eq num b = true) :
    a.clojureHash num = b.clojureHash num :=
  (hD.upTo_regular (a.size + b.size)).2 a ⟨ha, by omega⟩ b ⟨hb, by omega⟩ h

theorem Ordinary.regular : Regular num D := by
  -- a lookup only involves the collection and one key, which are in the class up to some size
  have hkey : ∀ {v x : Value}, v ∈ D → x ∈ keysOf D →
      ∃ n, v ∈ upTo D n ∧ x ∈ keysOf (upTo D n) := by
    rintro v x hv ⟨w, hw, hx⟩
    exact ⟨v.size + w.size, ⟨hv, by omega⟩, w, ⟨hw, by omega⟩, hx⟩
  have hlawful : ∀ {v : Value} {m : MapValue Value Value}, v ∈ D →
      (∀ n, v ∈ upTo D n → m.Lawful (keyOps num) (keysOf (upTo D n))) →
      m.Lawful (keyOps num) (keysOf D) := by
    intro v m hv h
    have hself := h v.size ⟨hv, Nat.le_refl _⟩
    refine ⟨hself.count, hself.distinct, ?_⟩
    intro x hx
    obtain ⟨n, hvn, hxn⟩ := hkey hv hx
    exact (h n hvn).get x hxn
  refine ⟨⟨hD.children, hD.notNaN, hD.cells, ?_, ?_, ?_⟩, hD.notNil⟩
  · exact fun m hm => hlawful hm (fun n hn => (hD.upTo_regular n).1.maps m hn)
  · exact fun tag m hm => hlawful hm (fun n hn => (hD.upTo_regular n).1.records tag m hn)
  · intro s hs
    have hself := (hD.upTo_regular (set s).size).1.sets s ⟨hs, Nat.le_refl _⟩
    refine ⟨hself.count, hself.distinct, ?_⟩
    intro x hx
    obtain ⟨n, hsn, hxn⟩ := hkey hs hx
    exact ((hD.upTo_regular n).1.sets s hsn).contains x hxn

end Ordinary

end Value

/-! ## The laws -/

open Value

/-- The text of a decimal with a scale that is not negative: the digits with a point. -/
def displayDecimal (d : BigDecimal) : String :=
  let digits := (Nat.repr d.intVal.natAbs).toList
  let padded := List.replicate (d.scale.toNat + 1 - digits.length) '0' ++ digits
  let whole := padded.take (padded.length - d.scale.toNat)
  let fraction := padded.drop (padded.length - d.scale.toNat)
  let sign := if d.intVal < 0 then ['-'] else []
  String.ofList (sign ++ whole ++ (if d.scale ≤ 0 then [] else '.' :: fraction))

/-- The conversions of the number crates where no digit is lost. -/
def exactNumerics : Numerics where
  display := displayDecimal
  bigIntToF64 n := some (F64.ofInt n)
  ratioToF64 r := if r.den = 1 then some (F64.ofInt r.num) else none
  decimalOfF64 x := x.whole?.map BigDecimal.ofInt

/-- A set of one element, as a hash set and as a sorted set. -/
def hashSetOf (x : Value) : Value := .set (.hash ⟨[(x, 0)], [(0, x)]⟩)

def sortedSetOf (x : Value) : Value := .set (.sorted (.node .leaf x .leaf))

/-- `#{1}` as a hash set and `#{1N}` as a sorted set, with their elements. -/
def onesClass : Set Value :=
  {v | v = long 1 ∨ v = bigInt 1 ∨ v = hashSetOf (long 1) ∨ v = sortedSetOf (bigInt 1)}

theorem keysOf_onesClass {x : Value} (hx : x ∈ keysOf onesClass) : x = long 1 ∨ x = bigInt 1 := by
  obtain ⟨v, hv, hx⟩ := hx
  rcases hv with rfl | rfl | rfl | rfl
  · cases hx
  · cases hx
  · exact .inl (mem_singleton.mp hx)
  · exact .inr (mem_singleton.mp hx)

theorem onesClass_ordinary : Ordinary exactNumerics onesClass := by
  refine ⟨?_, ?_, ?_, ?_, ?_, ?_, ?_, ?_⟩
  · rintro v (rfl | rfl | rfl | rfl) c hc
    · cases hc
    · cases hc
    · simp only [hashSetOf, children, SetValue.members, map_cons, map_nil,
        cons_append, nil_append, mem_cons, not_mem_nil, or_false, or_self] at hc
      exact .inl hc
    · exact .inr (.inl (mem_singleton.mp hc))
  · rintro v (rfl | rfl | rfl | rfl) <;> rfl
  · rintro cell x y (h | h | h | h) <;> cases h
  · rintro cell x (h | h | h | h) <;> cases h
  · rintro d d' (h | h | h | h) <;> cases h
  · rintro m (h | h | h | h) <;> cases h
  · rintro tag m (h | h | h | h) <;> cases h
  · rintro s (h | h | h | h)
    · cases h
    · cases h
    · cases h
      exact ⟨by decide, by decide, by decide, by decide⟩
    · cases h
      refine ⟨rfl, by decide, ?_⟩
      intro x hx
      rcases keysOf_onesClass hx with rfl | rfl <;> decide

/-- **Equality is an equivalence**: reflexive on every sound class, and also symmetric and transitive
where no lazy seq that realises to `nil` stands beside an empty sequence. -/
theorem eq_is_equivalence (num : Numerics) (D : Set Value) :
    (Sound num D → ∀ x ∈ D, x.eq num x = true) ∧
    (Regular num D ∨ Ordinary num D → (∀ x ∈ D, x.eq num x = true) ∧
      (∀ x ∈ D, ∀ y ∈ D, x.eq num y = true → y.eq num x = true) ∧
      ∀ x ∈ D, ∀ y ∈ D, ∀ z ∈ D, x.eq num y = true → y.eq num z = true → x.eq num z = true) := by
  refine ⟨fun hsound x hx => hsound.eq_self hx, ?_⟩
  intro hD
  have hregular : Regular num D := hD.elim id Ordinary.regular
  have hequiv := hregular.equivOn
  grind

/-- `nil`, `(lazy-seq nil)` and `()`: a lazy seq without items is equal to `nil` and to every empty
sequence. -/
theorem eq_not_transitive_lazySeq_nil : nil.eq exactNumerics (lazySeq 0 nil) = true ∧
      (lazySeq 0 nil).eq exactNumerics (list []) = true ∧
      nil.eq exactNumerics (list []) = false := by decide

/-- `#{1}` and `#{1N}` are equal in both directions. -/
theorem eq_is_equivalence_ones : (hashSetOf (long 1)).eq exactNumerics (hashSetOf (long 1)) = true ∧
      (hashSetOf (long 1)).eq exactNumerics (sortedSetOf (bigInt 1)) = true ∧
      (sortedSetOf (bigInt 1)).eq exactNumerics (hashSetOf (long 1)) = true := by
  have hset : hashSetOf (long 1) ∈ onesClass := .inr (.inr (.inl rfl))
  have heq : (hashSetOf (long 1)).eq exactNumerics (sortedSetOf (bigInt 1)) = true := by decide
  obtain ⟨hsound, hordinary⟩ := eq_is_equivalence exactNumerics onesClass
  exact ⟨hsound onesClass_ordinary.regular.toSound _ hset, heq,
    (hordinary (.inr onesClass_ordinary)).2.1 _ hset _ (.inr (.inr (.inr rfl))) heq⟩

end Clojurust
