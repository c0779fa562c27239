import Clojurust.Lib.Comparison
import Clojurust.Lib.Float64Order
import Clojurust.Value.HashLaws

/-!
# The order of values

`Ord::cmp` strips metadata, compares values of one kind by what they hold and values of different
kinds by their kind. Turning the arguments around always turns the result around. The comparison is
transitive where no number is rounded: numbers of two types are compared after a conversion to a
double or a decimal.

* `Value.number` — the number that a numeric value stands for, `Exact` — a class of values whose
  conversions keep it; `Exact.cmp_number`;
* `cmp_swap` — antisymmetry, `Exact.totalOn` — transitivity;
* `Consistent` — a class in which the order tells apart what equality does;
  `Consistent.cmp_eq_iff`, and so sorted collections find their keys (`lawful_sortedMap`).
-/

namespace Clojurust

open Comparison Std List

/-! ## Comparing numbers -/

section Numbers

variable {num : Numerics}

theorem cmpDecimal_eq (a b : BigDecimal) : Value.cmpDecimal num a b = compare a.value b.value := by
  rw [Value.cmpDecimal, BigDecimal.partialCmp, Option.getD_some, BigDecimal.compare_aligned]

theorem BigDecimal.value_ofInt (n : Int) : (BigDecimal.ofInt n).value = n := by
  simp [BigDecimal.value, BigDecimal.ofInt]

theorem compare_toInt (a b : Int64) : compare a b = compare a.toInt b.toInt := by
  show compareOfLessAndEq a b = compareOfLessAndEq a.toInt b.toInt
  simp only [compareOfLessAndEq, Int64.lt_iff_toInt_lt, Int64.toInt_inj]

theorem totalCmp_swap (x y : F64) : x.totalCmp y = (y.totalCmp x).swap := by
  unfold F64.totalCmp
  cases x.isNeg <;> cases y.isNeg <;> first | rfl | exact OrientedOrd.eq_swap

end Numbers

namespace Value

def isNumber : Value → Bool
  | long _ | double _ | bigInt _ | bigDecimal _ | ratio _ => true
  | _ => false

/-- The number that a numeric value stands for. -/
def number : Value → Extended
  | long n => .ofRat n.toInt
  | double x => x.extended
  | bigInt n => .ofRat n
  | bigDecimal d => .ofRat d.value
  | ratio r => .ofRat r
  | _ => .ofRat 0

/-- The double that a number of another type is compared as. -/
def toF64 (num : Numerics) : Value → Option F64
  | long n => some (F64.ofInt n.toInt)
  | bigInt n => some ((num.bigIntToF64 n).getD f64Max)
  | ratio r => some ((num.ratioToF64 r).getD f64Max)
  | _ => none

/-- The decimal that a double is compared as is the same number; only infinities have none. -/
def ExactDecimal (num : Numerics) (x : F64) : Prop :=
  match num.decimalOfF64 x with
  | some d => x.isInfinite = false ∧ d.value = x.value
  | none => x.isInfinite = true

/-- A class of data values, closed under parts, in which conversions between numbers are exact. -/
@[grind cases]
structure Exact (num : Numerics) (D : Set Value) : Prop where
  children : ∀ v ∈ D, ∀ c ∈ v.children, c ∈ D
  notNaN : ∀ v ∈ D, v.isNaN = false
  notReduced : ∀ v, reduced v ∉ D
  toDouble : ∀ v ∈ D, ∀ x, double x ∈ D → ∀ y, v.toF64 num = some y →
    y.isNaN = false ∧ y.extended = v.number
  toDecimal : ∀ x d, double x ∈ D → bigDecimal d ∈ D → ExactDecimal num x
  ratioToDecimal : ∀ r d, ratio r ∈ D → bigDecimal d ∈ D →
    ∃ d', num.decimalOfF64 ((num.ratioToF64 r).getD f64Max) = some d' ∧ d'.value = r
  /-- A decimal zero is equal to both zeros of the doubles. -/
  zero : ∀ x d, double x ∈ D → bigDecimal d ∈ D → x.extended.zero = -1 → d.value ≠ 0

section Kinds

variable {num : Numerics}

theorem isMeta_unwrapMeta (v : Value) : v.unwrapMeta.isMeta = false := by
  fun_induction unwrapMeta v with
  | case1 inner metadata ih => exact ih
  | case2 v hv =>
    cases v with
    | withMeta inner metadata => exact (hv inner metadata rfl).elim
    | _ => rfl

theorem size_lt_of_mem_unwrapMeta {v c : Value} (h : c ∈ v.unwrapMeta.children) : c.size < v.size :=
  Nat.lt_of_lt_of_le (size_lt_of_mem h) (size_unwrapMeta_le v)

theorem cmp_unwrapMeta (a b : Value) :
    a.cmp num b = cmpPlain num (cmp num) a.unwrapMeta b.unwrapMeta := by
  have hstep : ∀ x y : Value, x.isMeta = false → y.isMeta = false →
      x.cmp num y = cmpPlain num (cmp num) x y := by
    intro x y hx hy
    rw [cmp_eq]
    simp [cmpStep, hx, hy]
  by_cases hmeta : (a.isMeta || b.isMeta) = true
  · rw [cmp_eq, cmpStep, if_pos hmeta]
    exact hstep _ _ (isMeta_unwrapMeta a) (isMeta_unwrapMeta b)
  · have hid : ∀ v : Value, v.isMeta = false → v.unwrapMeta = v := by
      intro v hv
      cases v <;> first | rfl | cases hv
    grind

variable {f : Value → Value → Ordering} {a b : Value}

theorem cmpPlain_of_kind_ne (h : a.typeDiscriminant ≠ b.typeDiscriminant) :
    cmpPlain num f a b = compare a.typeDiscriminant b.typeDiscriminant := by
  unfold cmpPlain
  split <;> first | rfl | exact absurd rfl h

/-- Two values of one kind, neither wrapped. -/
inductive SameKind : Value → Value → Prop
  | nil : SameKind nil nil
  | bool (a b : Bool) : SameKind (bool a) (bool b)
  | number {a b : Value} (ha : a.isNumber = true) (hb : b.isNumber = true) : SameKind a b
  | char (a b : Char) : SameKind (char a) (char b)
  | str (a b : String) : SameKind (str a) (str b)
  | symbol (a b : Symbol) : SameKind (symbol a) (symbol b)
  | keyword (a b : Keyword) : SameKind (keyword a) (keyword b)
  | list (a b : List Value) : SameKind (list a) (list b)
  | vector (a b : List Value) : SameKind (vector a) (vector b)
  | map (a b : MapValue Value Value) : SameKind (map a) (map b)
  | set (a b : SetValue Value) : SameKind (set a) (set b)
  | instant (a b : Int64) : SameKind (instant a) (instant b)
  /-- Queues, lazy seqs, cons cells, records and uuids are compared by kind only. -/
  | unseen {a b : Value} (ha : a.typeDiscriminant ∈ [11, 12, 13, 28, 38])
      (hb : b.typeDiscriminant = a.typeDiscriminant) : SameKind a b

theorem sameKind_of_typeDiscriminant (ha : a.isMeta = false) (hb : b.isMeta = false)
    (ha' : ∀ v, a ≠ reduced v) (hb' : ∀ v, b ≠ reduced v)
    (h : a.typeDiscriminant = b.typeDiscriminant) : SameKind a b := by
  cases a <;> (try cases ha) <;> cases b <;> (try cases hb) <;> first
    | exact (Nat.ne_of_beq_eq_false rfl h).elim
    | exact (ha' _ rfl).elim
    | exact (hb' _ rfl).elim
    | exact .number rfl rfl
    | apply SameKind.nil
    | apply SameKind.bool
    | apply SameKind.char
    | apply SameKind.str
    | apply SameKind.symbol
    | apply SameKind.keyword
    | apply SameKind.list
    | apply SameKind.vector
    | apply SameKind.map
    | apply SameKind.set
    | apply SameKind.instant
    | exact .unseen (by simp [typeDiscriminant]) rfl

theorem typeDiscriminant_of_isNumber (h : a.isNumber = true) : a.typeDiscriminant = 2 := by
  cases a <;> first | rfl | cases h

theorem SameKind.typeDiscriminant_eq (h : SameKind a b) :
    a.typeDiscriminant = b.typeDiscriminant := by
  cases h with
  | number ha hb => rw [typeDiscriminant_of_isNumber ha, typeDiscriminant_of_isNumber hb]
  | unseen _ h => exact h.symm
  | _ => rfl

theorem iterCmp_eq_compareLex (f : Value → Value → Ordering) : ∀ xs ys : List Value,
    iterCmp f xs ys = List.compareLex f xs ys
  | [], [] | [], _ :: _ | _ :: _, [] => rfl
  | x :: xs, y :: ys => by
    rw [iterCmp, List.compareLex_cons_cons, iterCmp_eq_compareLex f xs ys]
    cases f x y <;> rfl

theorem cmpNsName_eq (ns ns' : Option String) (name name' : String) :
    cmpNsName ns name ns' name' = (compare ns ns').then (compare name name') := by
  cases ns <;> cases ns' <;> rfl

theorem cmpDoubleDecimal_swap (x : F64) (d : BigDecimal) :
    cmpDoubleDecimal num x d = (cmpDecimalDouble num d x).swap := by
  unfold cmpDoubleDecimal cmpDecimalDouble
  cases num.decimalOfF64 x with
  | some d' =>
    simp only [cmpDecimal_eq]
    exact OrientedOrd.eq_swap
  | none =>
    simp only
    split <;> first | rfl | split <;> rfl

theorem cmpRatioDecimal_swap (r : ℚ) (d : BigDecimal) :
    cmpRatioDecimal num r d = (cmpDecimalRatio num d r).swap := by
  unfold cmpRatioDecimal cmpDecimalRatio
  cases num.decimalOfF64 ((num.ratioToF64 r).getD f64Max) with
  | some d' =>
    simp only [cmpDecimal_eq]
    exact OrientedOrd.eq_swap
  | none => rfl

theorem cmpPlain_number_swap (ha : a.isNumber = true)
    (hb : b.isNumber = true) : cmpPlain num f a b = (cmpPlain num f b a).swap := by
  cases a <;> cases ha <;> cases b <;> cases hb <;> simp only [cmpPlain, cmpDecimal_eq] <;> first
    | exact OrientedOrd.eq_swap
    | exact totalCmp_swap _ _
    | with_reducible exact cmpDoubleDecimal_swap _ _
    | with_reducible exact cmpRatioDecimal_swap _ _
    | (rw [cmpDoubleDecimal_swap, Ordering.swap_swap])
    | (rw [cmpRatioDecimal_swap, Ordering.swap_swap])

theorem cmpPlain_unseen (ha : a.typeDiscriminant ∈ [11, 12, 13, 28, 38])
    (hb : b.typeDiscriminant = a.typeDiscriminant) : cmpPlain num f a b = .eq := by
  unfold cmpPlain
  split <;> first
    | exact Nat.compare_eq_eq.mpr hb.symm
    | exact absurd ha (by simp [typeDiscriminant])

theorem cmpPlain_reduced (inner b : Value) :
    cmpPlain num f (reduced inner) b = compare inner.typeDiscriminant b.typeDiscriminant ∧
      cmpPlain num f b (reduced inner) = compare b.typeDiscriminant inner.typeDiscriminant := by
  cases b <;> exact ⟨rfl, rfl⟩

theorem compareLex_swap : ∀ {xs ys : List Value}, (∀ x ∈ xs, ∀ y ∈ ys, f x y = (f y x).swap) →
      List.compareLex f xs ys = (List.compareLex f ys xs).swap
  | [], [], _ | [], _ :: _, _ | _ :: _, [], _ => rfl
  | x :: xs, y :: ys, h => by
    have hitems : ∀ x ∈ xs, ∀ y ∈ ys, f x y = (f y x).swap := fun x hx y hy =>
      h x (.tail _ hx) y (.tail _ hy)
    have hrest := compareLex_swap hitems
    rw [List.compareLex_cons_cons, List.compareLex_cons_cons, Ordering.swap_then,
      ← h x List.mem_cons_self y (.head _), ← hrest]

theorem cmpPlain_swap (ha : a.isMeta = false)
    (hb : b.isMeta = false) (hf : ∀ x ∈ a.children, ∀ y ∈ b.children, f x y = (f y x).swap) :
    cmpPlain num f a b = (cmpPlain num f b a).swap := by
  by_cases hkind : a.typeDiscriminant = b.typeDiscriminant
  · by_cases ha' : ∃ v, a = reduced v
    · obtain ⟨v, rfl⟩ := ha'
      rw [(cmpPlain_reduced v b).1, (cmpPlain_reduced v b).2]
      exact OrientedOrd.eq_swap
    · by_cases hb' : ∃ v, b = reduced v
      · obtain ⟨v, rfl⟩ := hb'
        rw [(cmpPlain_reduced v a).1, (cmpPlain_reduced v a).2]
        exact OrientedOrd.eq_swap
      · have hsame := sameKind_of_typeDiscriminant ha hb (fun v hv => ha' ⟨v, hv⟩)
          (fun v hv => hb' ⟨v, hv⟩) hkind
        cases hsame with
        | nil => rfl
        | number hna hnb => exact cmpPlain_number_swap hna hnb
        | symbol a | keyword a =>
          simp only [cmpPlain, cmpNsName_eq, Ordering.swap_then]
          rw [OrientedOrd.eq_swap (a := a.ns), OrientedOrd.eq_swap (a := a.name)]
        | list | vector =>
          simp only [cmpPlain, iterCmp_eq_compareLex]
          exact compareLex_swap hf
        | unseen hseen hdisc =>
          rw [cmpPlain_unseen hseen hdisc, cmpPlain_unseen (hdisc ▸ hseen) hdisc.symm]
          rfl
        | _ => exact OrientedOrd.eq_swap
  · rw [cmpPlain_of_kind_ne hkind, cmpPlain_of_kind_ne (Ne.symm hkind)]
    exact OrientedOrd.eq_swap

/-- **Antisymmetry**: turning the arguments around turns the result around, for any two values. -/
theorem cmp_swap (a b : Value) : a.cmp num b = (b.cmp num a).swap := by
  induction hn : a.size + b.size using Nat.strong_induction_on generalizing a b with
  | _ n ih =>
    rw [cmp_unwrapMeta, cmp_unwrapMeta b a]
    refine cmpPlain_swap (isMeta_unwrapMeta a) (isMeta_unwrapMeta b) ?_
    intro x hx y hy
    refine ih (x.size + y.size) ?_ x y rfl
    have hax := size_lt_of_mem_unwrapMeta hx
    have hby := size_lt_of_mem_unwrapMeta hy
    omega

/-! ## Transitivity -/

theorem cmpDoubleDecimal_exact {x : F64} {d : BigDecimal} (hx : x.isNaN = false)
    (hexact : ExactDecimal num x) (hzero : x.extended.zero = -1 → d.value ≠ 0) :
    cmpDoubleDecimal num x d = x.extended.cmp (.ofRat d.value) := by
  unfold ExactDecimal at hexact
  unfold cmpDoubleDecimal
  cases hdec : num.decimalOfF64 x with
  | some d' =>
    obtain ⟨hfinite, hvalue⟩ : x.isInfinite = false ∧ d'.value = x.value := by
      simpa [hdec] using hexact
    have hext := F64.extended_of_finite (x := x) (by simpa [F64.isInfinite] using hfinite)
    have hzero' : x.extended.zero = 0 ∨ x.extended.value ≠ d.value := by
      rcases x.extended_zero with h | ⟨h, hv⟩
      · exact .inl h
      · grind
    rw [Extended.cmp_ofRat_right (by rw [hext]) hzero', hext]
    simp only [cmpDecimal_eq, hvalue]
  | none =>
    have hinf : x.magnitude = F64.infMagnitude := by
      have : x.isInfinite = true := by simpa [hdec] using hexact
      simpa [F64.isInfinite] using this
    have hnonzero : x.isZero = false := by
      rw [F64.isZero, hinf]
      decide
    rw [F64.extended_of_infinite hinf]
    simp only [hx, hnonzero, Bool.not_false, Bool.and_true, Bool.false_eq_true, if_false]
    cases x.isNeg <;> rfl

end Kinds

section Transitive

variable {num : Numerics} {D : Set Value} (hD : Exact num D)

include hD

variable {a b : Value}

/-- **Numbers of a class with exact conversions are compared by their value.** -/
theorem Exact.cmpPlain_number {f : Value → Value → Ordering} (ha : a ∈ D) (hb : b ∈ D)
    (hna : a.isNumber = true) (hnb : b.isNumber = true) :
    cmpPlain num f a b = a.number.cmp b.number := by
  have hdouble : ∀ {v x y}, v ∈ D → double x ∈ D → v.toF64 num = some y →
      y.totalCmp x = v.number.cmp x.extended ∧ x.totalCmp y = x.extended.cmp v.number := by
    intro v x y hv hx hy
    obtain ⟨hnan, hext⟩ := hD.toDouble v hv x hx y hy
    have hnan' : x.isNaN = false := hD.notNaN _ hx
    rw [F64.totalCmp_extended hnan hnan', F64.totalCmp_extended hnan' hnan, hext]
    exact ⟨rfl, rfl⟩
  have hdecimal : ∀ {x d}, double x ∈ D → bigDecimal d ∈ D →
      cmpDoubleDecimal num x d = x.extended.cmp (.ofRat d.value) := fun hx hd =>
    cmpDoubleDecimal_exact (hD.notNaN _ hx) (hD.toDecimal _ _ hx hd) (hD.zero _ _ hx hd)
  have hratio : ∀ {r d}, ratio r ∈ D → bigDecimal d ∈ D →
      cmpRatioDecimal num r d = compare r d.value := by
    intro r d hr hd
    obtain ⟨d', hd', hvalue⟩ := hD.ratioToDecimal r d hr hd
    unfold cmpRatioDecimal
    rw [hd', ← hvalue]
    exact cmpDecimal_eq d' d
  -- exact on both sides, or one of the conversions above, in either order
  cases a <;> cases hna <;> cases b <;> cases hnb <;>
    simp only [cmpPlain, number, cmpDecimal_eq, Extended.cmp_ofRat, compare_intCast, compare_toInt,
      BigDecimal.value_ofInt] <;> first
    | exact (hdouble ha hb rfl).1
    | exact (hdouble hb ha rfl).2
    | exact F64.totalCmp_extended (hD.notNaN _ ha) (hD.notNaN _ hb)
    | exact hdecimal ha hb
    | exact hratio ha hb
    | (rw [← Ordering.swap_inj, ← cmpDoubleDecimal_swap, hdecimal hb ha]; exact OrientedCmp.eq_swap)
    | (rw [← Ordering.swap_inj, ← cmpRatioDecimal_swap, hratio hb ha]; exact OrientedOrd.eq_swap)

theorem Exact.cmp_number (ha : a ∈ D) (hb : b ∈ D) (hna : a.isNumber = true)
    (hnb : b.isNumber = true) : a.cmp num b = a.number.cmp b.number := by
  have hunwrap : ∀ v : Value, v.isNumber = true → v.unwrapMeta = v := by
    intro v hv
    cases v <;> first | rfl | cases hv
  rw [cmp_unwrapMeta, hunwrap a hna, hunwrap b hnb]
  exact hD.cmpPlain_number ha hb hna hnb

theorem Exact.unwrapMeta_mem {v : Value} (hv : v ∈ D) : v.unwrapMeta ∈ D := by
  fun_induction unwrapMeta v with
  | case1 inner metadata ih => exact ih (hD.children _ hv inner (by simp [Value.children]))
  | case2 => exact hv

theorem Exact.sameKind (ha : a ∈ D) (hb : b ∈ D)
    (h : a.unwrapMeta.typeDiscriminant = b.unwrapMeta.typeDiscriminant) :
    SameKind a.unwrapMeta b.unwrapMeta := by
  refine sameKind_of_typeDiscriminant (isMeta_unwrapMeta a) (isMeta_unwrapMeta b) ?_ ?_ h
  · exact fun v hv => hD.notReduced v (hv ▸ hD.unwrapMeta_mem ha)
  · exact fun v hv => hD.notReduced v (hv ▸ hD.unwrapMeta_mem hb)

theorem Exact.trans_of_sameKind {E : Set Value} {c : Value} (ha : a ∈ D) (hb : b ∈ D)
    (hc : c ∈ D) (hab : SameKind a b) (hbc : SameKind b c) (htotal : TotalOn (cmp num) E)
    (hEa : ∀ x ∈ a.children, x ∈ E) (hEb : ∀ x ∈ b.children, x ∈ E) (hEc : ∀ x ∈ c.children, x ∈ E)
    (h1 : (cmpPlain num (cmp num) a b).isLE = true) (h2 : (cmpPlain num (cmp num) b c).isLE = true) :
    (cmpPlain num (cmp num) a c).isLE = true := by
  have hname : ∀ {ns1 ns2 ns3 : Option String} {n1 n2 n3 : String},
      (cmpNsName ns1 n1 ns2 n2).isLE = true → (cmpNsName ns2 n2 ns3 n3).isLE = true →
      (cmpNsName ns1 n1 ns3 n3).isLE = true := by
    intro ns1 ns2 ns3 n1 n2 n3 h h'
    simp only [cmpNsName_eq] at h h' ⊢
    exact @TransCmp.isLE_trans (Option String × String)
      (compareLex (compareOn Prod.fst) (compareOn Prod.snd)) inferInstance
      (ns1, n1) (ns2, n2) (ns3, n3) h h'
  by_cases hnumber : a.isNumber = true
  · have hkind : ∀ {x y}, SameKind x y → x.isNumber = true → y.isNumber = true := by
      intro x y hxy hx
      cases hxy with
      | number _ hy => exact hy
      | unseen hunseen _ =>
        rw [typeDiscriminant_of_isNumber hx] at hunseen
        exact absurd hunseen (by decide)
      | _ => cases hx
    have hnumber' := hkind hab hnumber
    have hnumber'' := hkind hbc hnumber'
    rw [hD.cmpPlain_number ha hb hnumber hnumber'] at h1
    rw [hD.cmpPlain_number hb hc hnumber' hnumber''] at h2
    rw [hD.cmpPlain_number ha hc hnumber hnumber'']
    exact TransCmp.isLE_trans h1 h2
  · by_cases hunseen : a.typeDiscriminant ∈ [11, 12, 13, 28, 38]
    · rw [cmpPlain_unseen hunseen (hab.typeDiscriminant_eq.trans hbc.typeDiscriminant_eq).symm]
      rfl
    · cases hab <;> first | contradiction | skip
      all_goals cases hbc <;> first | contradiction | skip
      all_goals simp only [cmpPlain, iterCmp_eq_compareLex] at h1 h2 ⊢
      all_goals first
        | rfl
        | exact TransOrd.isLE_trans h1 h2
        | exact hname h1 h2
        | exact htotal.lex.trans _ hEa _ hEb _ hEc h1 h2

/-- **Transitivity**: on a class with exact conversions the order is a total preorder. -/
theorem Exact.totalOn : TotalOn (cmp num) D := by
  -- by a bound on the sizes: the items of a sequence are in the class with the smaller bound
  have hbounded : ∀ n, TotalOn (cmp num) {v | v ∈ D ∧ v.size < n} := by
    intro n
    induction n with
    | zero =>
      have hempty := fun (v : Value) (hv : v ∈ D ∧ v.size < 0) => Nat.not_lt_zero _ hv.2
      exact ⟨fun x hx => (hempty x hx).elim, fun x hx => (hempty x hx).elim⟩
    | succ n ih =>
      have hkind : ∀ v : Value, v.unwrapMeta.typeDiscriminant = v.typeDiscriminant := by
        intro v
        fun_induction unwrapMeta v with
        | case1 inner metadata ih => exact ih
        | case2 => rfl
      have hparts : ∀ v ∈ {v | v ∈ D ∧ v.size < n + 1}, ∀ x ∈ v.unwrapMeta.children,
          x ∈ {v | v ∈ D ∧ v.size < n} := by
        intro v hv x hx
        have hlt := size_lt_of_mem_unwrapMeta hx
        have hle := hv.2
        exact ⟨hD.children _ (hD.unwrapMeta_mem hv.1) x hx, by omega⟩
      refine TotalOn.of_kind typeDiscriminant ?_ ?_
      · intro x _ y _ h
        rw [cmp_unwrapMeta, cmpPlain_of_kind_ne (by rwa [hkind, hkind]), hkind, hkind]
      · intro k
        refine ⟨fun x _ y _ => cmp_swap x y, ?_⟩
        rintro x ⟨hx, rfl⟩ y ⟨hy, hky⟩ z ⟨hz, hkz⟩
        rw [cmp_unwrapMeta, cmp_unwrapMeta y, cmp_unwrapMeta x z]
        have hxy : SameKind x.unwrapMeta y.unwrapMeta :=
          hD.sameKind hx.1 hy.1 (by rw [hkind, hkind, hky])
        have hyz : SameKind y.unwrapMeta z.unwrapMeta :=
          hD.sameKind hy.1 hz.1 (by rw [hkind, hkind, hky, hkz])
        exact hD.trans_of_sameKind (hD.unwrapMeta_mem hx.1) (hD.unwrapMeta_mem hy.1)
          (hD.unwrapMeta_mem hz.1) hxy hyz ih (hparts x hx) (hparts y hy) (hparts z hz)
  refine ⟨fun x _ y _ => cmp_swap x y, ?_⟩
  intro x hx y hy z hz
  exact (hbounded (x.size + y.size + z.size + 1)).trans x ⟨hx, by omega⟩ y ⟨hy, by omega⟩ z
    ⟨hz, by omega⟩

end Transitive


/-! ## Consistency with equality -/

/-- The order looks at all of the value: not so for collections other than lists and vectors, for
records and for uuids. -/
def isSeen : Value → Bool
  | queue _ _ | lazySeq _ _ | cons _ _ | typeInstance _ _ | uuid _ | map _ | set _ | reduced _ => false
  | _ => true

/-- Equality tells numbers of different types apart, integers of both kinds aside. -/
def numberType : Value → Nat
  | long _ | bigInt _ => 0
  | double _ => 1
  | bigDecimal _ => 2
  | _ => 3

/-- A class in which the order and equality tell the same values apart. -/
structure Consistent (num : Numerics) (D : Set Value) : Prop extends Exact num D where
  seen : ∀ v ∈ D, v.isSeen = true
  sequences : ∀ xs ys, list xs ∈ D → vector ys ∉ D
  symbols : ∀ s s', symbol s ∈ D → symbol s' ∈ D → s.ns = s'.ns → s.name = s'.name → s = s'
  /-- Numbers of different types have different values, and so have the zeros. -/
  numbers : ∀ a ∈ D, ∀ b ∈ D, a.isNumber = true → b.isNumber = true →
    a.number.infinity = b.number.infinity → a.number.value = b.number.value →
    a.numberType = b.numberType ∧ a.number.zero = b.number.zero

section Consistency

variable {num : Numerics} {D : Set Value} (hD : Consistent num D)

theorem eq_unwrapMeta (a b : Value) : a.eq num b = a.unwrapMeta.eq num b.unwrapMeta := by
  have hleft : ∀ x y : Value, x.eq num y = x.unwrapMeta.eq num y := by
    intro x y
    fun_induction unwrapMeta x with
    | case1 inner metadata ih => rw [eq_withMeta_left, ih]
    | case2 => rfl
  have hright : ∀ x y : Value, x.eq num y = x.eq num y.unwrapMeta := by
    intro x y
    fun_induction unwrapMeta y with
    | case1 inner metadata ih => rw [eq_withMeta_right, ih]
    | case2 => rfl
  rw [hleft, hright]

theorem isPlain_of_isSeen {v : Value} (hmeta : v.isMeta = false) (hseen : v.isSeen = true) :
    v.isPlain = true := by
  cases v <;> first | rfl | exact Bool.noConfusion hmeta | exact Bool.noConfusion hseen

theorem typeDiscriminant_of_isSeen {v : Value} (hmeta : v.isMeta = false) (hseen : v.isSeen = true) :
    v.typeDiscriminant ∉ [11, 12, 13, 28, 38] := by
  cases v <;> first
    | exact Bool.noConfusion hmeta
    | exact Bool.noConfusion hseen
    | simp [typeDiscriminant]

theorem compareLex_eq_iff {f : Value → Value → Ordering} : ∀ {xs ys : List Value},
    List.compareLex f xs ys = .eq ↔ List.Forall₂ (fun x y => f x y = .eq) xs ys
  | [], [] => iff_of_true rfl .nil
  | [], _ :: _ | _ :: _, [] => iff_of_false nofun nofun
  | x :: xs, y :: ys => by
    have ih : List.compareLex f xs ys = .eq ↔ List.Forall₂ (fun x y => f x y = .eq) xs ys :=
      compareLex_eq_iff
    rw [List.compareLex_cons_cons, Ordering.then_eq_eq, List.forall₂_cons, ih]

variable {f : Value → Value → Bool} {a b : Value}

theorem rel_number_iff (ha : a.isNumber = true)
    (hb : b.isNumber = true) (hna : a.isNaN = false) (hnb : b.isNaN = false) :
    Shape.Rel num f a.shape b.shape ↔ a.numberType = b.numberType ∧
      a.number.infinity = b.number.infinity ∧ a.number.value = b.number.value := by
  cases a <;> cases ha <;> cases b <;> cases hb <;>
    simp_all [shape, Shape.Rel, numberType, number, Extended.ofRat, isNaN, F64.normal_eq_iff]

theorem typeDiscriminant_of_rel (ha : a.isSeen = true)
    (hb : b.isSeen = true) (hma : a.isMeta = false) (hmb : b.isMeta = false)
    (hmixed : (∀ xs ys, a = list xs → b ≠ vector ys) ∧ (∀ xs ys, b = list xs → a ≠ vector ys))
    (h : Shape.Rel num f a.shape b.shape) : a.typeDiscriminant = b.typeDiscriminant := by
  cases a <;> first | exact Bool.noConfusion ha | exact Bool.noConfusion hma | skip
  all_goals cases b <;> first
    | exact Bool.noConfusion hb
    | exact Bool.noConfusion hmb
    | rfl
    | exact (hmixed.1 _ _ rfl rfl).elim
    | exact (hmixed.2 _ _ rfl rfl).elim
    | cases h

include hD

theorem Consistent.cmpPlain_eq_iff (ha : a ∈ D) (hb : b ∈ D) (hmeta : a.isMeta = false)
    (hsame : SameKind a b)
    (hitems : ∀ x ∈ a.children, ∀ y ∈ b.children, x.cmp num y = .eq ↔ x.eq num y = true) :
    cmpPlain num (cmp num) a b = .eq ↔ Shape.Rel num (eq num) a.shape b.shape := by
  have hlist : ∀ {xs ys : List Value}, (∀ x ∈ xs, ∀ y ∈ ys, x.cmp num y = .eq ↔ x.eq num y = true) →
      (iterCmp (cmp num) xs ys = .eq ↔ List.Forall₂ (fun x y => x.eq num y = true) xs ys) := by
    intro xs ys h
    rw [iterCmp_eq_compareLex, compareLex_eq_iff]
    rw [List.forall₂_iff_zip, List.forall₂_iff_zip]
    refine and_congr_right fun _ => ⟨fun hall x y hxy => ?_, fun hall x y hxy => ?_⟩
    · exact (h x (of_mem_zip hxy).1 y (of_mem_zip hxy).2).mp (hall hxy)
    · exact (h x (of_mem_zip hxy).1 y (of_mem_zip hxy).2).mpr (hall hxy)
  have hseen := hD.seen a ha
  cases hsame with
  | nil => exact iff_of_true rfl rfl
  | number hna hnb =>
    rw [hD.cmpPlain_number ha hb hna hnb, rel_number_iff hna hnb (hD.notNaN a ha) (hD.notNaN b hb),
      Extended.cmp_eq_iff, Extended.ext_iff]
    constructor
    · rintro ⟨hinf, hvalue, -⟩
      exact ⟨(hD.numbers a ha b hb hna hnb hinf hvalue).1, hinf, hvalue⟩
    · rintro ⟨-, hinf, hvalue⟩
      exact ⟨hinf, hvalue, (hD.numbers a ha b hb hna hnb hinf hvalue).2⟩
  | symbol s s' =>
    simp only [cmpPlain, cmpNsName_eq, Ordering.then_eq_eq, LawfulEqOrd.compare_eq_iff_eq, shape,
      Shape.Rel, Atom.symbol.injEq]
    exact ⟨fun h => hD.symbols s s' ha hb h.1 h.2, fun h => h ▸ ⟨rfl, rfl⟩⟩
  | keyword k k' =>
    simp only [cmpPlain, cmpNsName_eq, Ordering.then_eq_eq, LawfulEqOrd.compare_eq_iff_eq, shape,
      Shape.Rel, Atom.keyword.injEq]
    cases k
    cases k'
    simp
  | list | vector => exact hlist hitems
  | map | set => cases hseen
  | unseen hunseen _ => exact absurd hunseen (typeDiscriminant_of_isSeen hmeta hseen)
  | _ =>
    simp only [cmpPlain, shape, Shape.Rel, LawfulEqOrd.compare_eq_iff_eq, Atom.bool.injEq,
      Atom.char.injEq, Atom.str.injEq, Atom.instant.injEq]

/-- **Consistency**: in such a class the order ties exactly the values that are equal. -/
theorem Consistent.cmp_eq_iff (ha : a ∈ D) (hb : b ∈ D) :
    a.cmp num b = .eq ↔ a.eq num b = true := by
  induction hn : a.size + b.size using Nat.strong_induction_on generalizing a b with
  | _ n ih =>
    have ha' := hD.unwrapMeta_mem ha
    have hb' := hD.unwrapMeta_mem hb
    have hma := isMeta_unwrapMeta a
    have hmb := isMeta_unwrapMeta b
    have hpa := isPlain_of_isSeen hma (hD.seen _ ha')
    have hpb := isPlain_of_isSeen hmb (hD.seen _ hb')
    rw [cmp_unwrapMeta, eq_unwrapMeta, eq_plain hpa hpb,
      eqPlain_iff hpa hpb (hD.notNaN _ ha') (hD.notNaN _ hb')]
    by_cases hkind : a.unwrapMeta.typeDiscriminant = b.unwrapMeta.typeDiscriminant
    · refine hD.cmpPlain_eq_iff ha' hb' hma (hD.sameKind ha hb hkind) ?_
      intro x hx y hy
      have hax := size_lt_of_mem_unwrapMeta hx
      have hby := size_lt_of_mem_unwrapMeta hy
      exact ih (x.size + y.size) (by omega) (hD.children _ ha' x hx) (hD.children _ hb' y hy) rfl
    · refine iff_of_false ?_ ?_
      · rw [cmpPlain_of_kind_ne hkind]
        grind
      · refine fun h => hkind (typeDiscriminant_of_rel (hD.seen _ ha') (hD.seen _ hb') hma hmb ?_ h)
        exact ⟨fun xs ys hx hy => hD.sequences xs ys (hx ▸ ha') (hy ▸ hb'),
          fun xs ys hx hy => hD.sequences xs ys (hx ▸ hb') (hy ▸ ha')⟩

end Consistency

end Value

/-! ## Sorted collections -/

section Sorted

variable {α κ ν : Type} {ops : KeyOps κ} {K : Set κ}

/-- The entries of a search tree ascend strictly by key. -/
def Tree.Ordered (cmp : κ → κ → Ordering) (key : α → κ) (t : Tree α) : Prop :=
  t.toList.Pairwise (fun x y => cmp (key x) (key y) = .lt)

variable {key : α → κ}

/-- Descending an ordered tree finds what a search through its entries finds. -/
theorem Tree.find_eq_find? {cmp : κ → κ → Ordering} (htotal : TotalOn cmp K) {x : κ}
    (hx : x ∈ K) : ∀ {t : Tree α}, (∀ e ∈ t.toList, key e ∈ K) → t.Ordered cmp key →
      t.find (fun e => cmp x (key e)) = t.toList.find? (fun e => cmp x (key e) == .eq)
  | leaf, _, _ => rfl
  | node left entry right, hkeys, hordered => by
    unfold Ordered at hordered
    simp only [toList, pairwise_append, pairwise_cons, mem_append, mem_cons] at hordered hkeys
    obtain ⟨hleft, ⟨hroot, hright⟩, hcross⟩ := hordered
    have hentry : key entry ∈ K := hkeys entry (.inr (.inl rfl))
    have ihleft := find_eq_find? htotal hx (t := left) (fun e he => hkeys e (.inl he)) hleft
    have ihright := find_eq_find? htotal hx (t := right) (fun e he => hkeys e (.inr (.inr he))) hright
    -- nothing to the left of the root is tied with the key, unless the key is below it
    have hnone : cmp x (key entry) ≠ .lt →
        left.toList.find? (fun e => cmp x (key e) == .eq) = none := by
      intro hge
      refine find?_eq_none.mpr ?_
      intro e he htie
      have htie' : cmp x (key e) = .eq := by simpa using htie
      exact hge (htotal.lt_of_eq_of_lt hx (hkeys e (.inl he)) hentry htie'
        (hcross e he entry (.inl rfl)))
    simp only [find, toList, find?_append, find?_cons]
    cases hcmp : cmp x (key entry) with
    | lt =>
      -- nothing to the right of the root is tied with the key
      have hnone : right.toList.find? (fun e => cmp x (key e) == .eq) = none := by
        refine find?_eq_none.mpr ?_
        intro e he htie
        have hlt := htotal.lt_trans hx hentry (hkeys e (.inr (.inr he))) hcmp (hroot e he)
        rw [hlt] at htie
        cases htie
      simp [ihleft, hnone]
    | gt | eq =>
      have hnone := hnone (by simp [hcmp])
      simp [ihright, hnone]

variable (htotal : TotalOn ops.cmp K)
  (htie : ∀ x ∈ K, ∀ y ∈ K, ops.cmp x y = .eq ↔ ops.eq x y = true)

include htie

theorem Tree.Ordered.distinct {t : Tree α} (h : t.Ordered ops.cmp key)
    (hkeys : ∀ e ∈ t.toList, key e ∈ K) :
    (t.toList.map key).Pairwise (fun x y => ops.eq x y = false) := by
  refine pairwise_map.mpr (h.imp_of_mem ?_)
  grind

include htotal

theorem tied_iff {x y : κ} (hx : x ∈ K) (hy : y ∈ K) : (ops.cmp x y == .eq) = ops.eq y x := by
  have hswap : ops.cmp x y = .eq ↔ ops.cmp y x = .eq := by
    rw [htotal.swap x hx y hy, Ordering.swap_eq_eq]
  grind

/-- **An ordered tree is a lawful map**, where the order ties exactly the keys that are equal. -/
theorem lawful_sortedMap {t : Tree (κ × ν)} (hkeys : ∀ e ∈ t.toList, e.1 ∈ K)
    (h : t.Ordered ops.cmp Prod.fst) : (MapValue.sorted t).Lawful ops K := by
  refine ⟨rfl, h.distinct htie hkeys, ?_⟩
  intro x hx
  simp only [MapValue.get, MapValue.iter]
  rw [Tree.find_eq_find? htotal hx hkeys h]
  congr 1
  exact find?_congr fun e he => tied_iff htotal htie hx (hkeys e he)

theorem lawful_sortedSet {t : Tree κ} (hkeys : ∀ e ∈ t.toList, e ∈ K)
    (h : t.Ordered ops.cmp id) : (SetValue.sorted t).Lawful ops K := by
  refine ⟨rfl, ?_, ?_⟩
  · have := h.distinct htie hkeys
    rwa [map_id] at this
  · intro x hx
    simp only [SetValue.contains, SetValue.iter]
    rw [Tree.find_eq_find? htotal hx hkeys h, Bool.eq_iff_iff, find?_isSome, any_eq_true]
    refine exists_congr fun e => and_congr_right fun he => ?_
    rw [tied_iff htotal htie hx (hkeys e he)]

end Sorted

open Value

/-- **The order of values**: turning the arguments around turns the result around; where conversions
are exact the order is transitive, and numbers are ordered by value; where it also looks at all that
equality looks at, it ties exactly the values that are equal, and an ordered tree has distinct keys
and finds them. -/
theorem order_total_and_consistent (num : Numerics) :
    (∀ a b : Value, a.cmp num b = (b.cmp num a).swap) ∧
    (∀ D : Set Value, Exact num D →
      (∀ a ∈ D, ∀ b ∈ D, ∀ c ∈ D, (a.cmp num b).isLE = true → (b.cmp num c).isLE = true →
        (a.cmp num c).isLE = true) ∧
      ∀ a ∈ D, ∀ b ∈ D, a.isNumber = true → b.isNumber = true →
        a.cmp num b = a.number.cmp b.number) ∧
    ∀ D : Set Value, Consistent num D → (∀ a ∈ D, ∀ b ∈ D, a.cmp num b = .eq ↔ a.eq num b = true) ∧
      (∀ t : Tree (Value × Value), (∀ e ∈ t.toList, e.1 ∈ D) → t.Ordered (cmp num) Prod.fst →
        (MapValue.sorted t).Lawful (keyOps num) D) ∧
      ∀ t : Tree Value, (∀ e ∈ t.toList, e ∈ D) → t.Ordered (cmp num) id →
        (SetValue.sorted t).Lawful (keyOps num) D := by
  refine ⟨cmp_swap, ?_, ?_⟩
  · intro D hD
    exact ⟨hD.totalOn.trans, fun a ha b hb hna hnb => hD.cmp_number ha hb hna hnb⟩
  · intro D hD
    have htie : ∀ x ∈ D, ∀ y ∈ D, x.cmp num y = .eq ↔ x.eq num y = true := fun x hx y hy =>
      hD.cmp_eq_iff hx hy
    refine ⟨htie, ?_, ?_⟩
    · intro t hkeys hordered
      exact lawful_sortedMap hD.totalOn htie hkeys hordered
    · intro t hkeys hordered
      exact lawful_sortedSet hD.totalOn htie hkeys hordered

/-- `1` and `1.0` are tied and not equal, `(1)` and `[1]` are equal and not tied, `{1 nil}` and
`{2 nil}` are tied and not equal. -/
theorem order_inconsistent_with_equality :
    ((long 1).cmp exactNumerics (double ⟨0x3FF0000000000000⟩) = .eq ∧
      (long 1).eq exactNumerics (double ⟨0x3FF0000000000000⟩) = false) ∧
    ((list [long 1]).cmp exactNumerics (vector [long 1]) = .lt ∧
      (list [long 1]).eq exactNumerics (vector [long 1]) = true) ∧
    ((map (.array [(long 1, nil)])).cmp exactNumerics (map (.array [(long 2, nil)])) = .eq ∧
      (map (.array [(long 1, nil)])).eq exactNumerics (map (.array [(long 2, nil)])) = false) := by
  decide

-- Rounding: `9007199254740993` is tied with `9007199254740992.0` and that with `9007199254740992`.
example : (long 9007199254740993).cmp exactNumerics (double ⟨0x4340000000000000⟩) = .eq ∧
    (double ⟨0x4340000000000000⟩).cmp exactNumerics (long 9007199254740992) = .eq ∧
    (long 9007199254740993).cmp exactNumerics (long 9007199254740992) = .gt := by decide

/-- `1`, `1.5`, `7N` and `[7N]`. -/
def ascending : Set Value :=
  {v | v = long 1 ∨ v = double ⟨0x3FF8000000000000⟩ ∨ v = bigInt 7 ∨ v = vector [bigInt 7]}

theorem ascending_consistent : Consistent exactNumerics ascending := by
  refine ⟨⟨?_, ?_, ?_, ?_, ?_, ?_, ?_⟩, ?_, ?_, ?_, ?_⟩
  · rintro v (rfl | rfl | rfl | rfl) c hc
    · cases hc
    · cases hc
    · cases hc
    · exact .inr (.inr (.inl (mem_singleton.mp hc)))
  · rintro v (rfl | rfl | rfl | rfl) <;> decide
  · rintro v (h | h | h | h) <;> cases h
  · have hone : (F64.ofInt 1).isNaN = false ∧ (F64.ofInt 1).extended = .ofRat 1 := by decide +kernel
    have hseven : (F64.ofInt 7).isNaN = false ∧ (F64.ofInt 7).extended = .ofRat 7 := by decide +kernel
    rintro v (rfl | rfl | rfl | rfl) x _ y hy
    · obtain rfl := Option.some.inj hy
      exact hone
    · cases hy
    · obtain rfl := Option.some.inj hy
      exact hseven
    · cases hy
  · rintro x d _ (h | h | h | h) <;> cases h
  · rintro r d (h | h | h | h) <;> cases h
  · rintro x d _ (h | h | h | h) <;> cases h
  · rintro v (rfl | rfl | rfl | rfl) <;> rfl
  · rintro xs ys (h | h | h | h) <;> cases h
  · rintro s s' (h | h | h | h) <;> cases h
  · have hnumbers : ∀ a ∈ [long 1, double ⟨0x3FF8000000000000⟩, bigInt 7],
        ∀ b ∈ [long 1, double ⟨0x3FF8000000000000⟩, bigInt 7],
        a.number.infinity = b.number.infinity → a.number.value = b.number.value →
        a.numberType = b.numberType ∧ a.number.zero = b.number.zero := by decide +kernel
    have hmem : ∀ a ∈ ascending, a.isNumber = true →
        a ∈ [long 1, double ⟨0x3FF8000000000000⟩, bigInt 7] := by
      rintro a (rfl | rfl | rfl | rfl) h
      · simp
      · simp
      · simp
      · cases h
    grind

/-- `1` is below `1.5` and that is below `7N`; a sorted set of `1` and `7N` finds its keys. -/
theorem order_total_and_consistent_ascending : ((long 1).cmp exactNumerics (bigInt 7)).isLE = true ∧
      ((long 1).cmp exactNumerics (bigInt 7) = .eq ↔ (long 1).eq exactNumerics (bigInt 7) = true) ∧
      (SetValue.sorted (.node .leaf (long 1) (.node .leaf (bigInt 7) .leaf))).Lawful
        (keyOps exactNumerics) ascending := by
  obtain ⟨-, hexact, hconsistent⟩ := order_total_and_consistent exactNumerics
  obtain ⟨htrans, -⟩ := hexact ascending ascending_consistent.toExact
  obtain ⟨htie, -, hset⟩ := hconsistent ascending ascending_consistent
  have hlong : long 1 ∈ ascending := .inl rfl
  have hbig : bigInt 7 ∈ ascending := .inr (.inr (.inl rfl))
  refine ⟨htrans _ hlong _ (.inr (.inl rfl)) _ hbig (by decide) (by decide),
    htie _ hlong _ hbig, hset _ ?_ ?_⟩
  · simp only [Tree.toList, nil_append, mem_cons, not_mem_nil, or_false]
    grind
  · have hlt : (long 1).cmp exactNumerics (bigInt 7) = .lt := by decide
    simp [Tree.Ordered, Tree.toList, hlt]

end Clojurust
