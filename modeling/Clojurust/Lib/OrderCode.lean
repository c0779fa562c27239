import Mathlib.Tactic.Linarith

/-!
# Order-preserving, self-delimiting codes

A code writes every value as a string over an ordered alphabet.  It is an *order code* for a
comparison `cmp` when comparing two encodings lexicographically, whatever follows either of
them, first compares the values and only then what follows:

* `IsOrderCode` — the property, `IsOrderCode.compare_enc` and `IsOrderCode.eq_of_append_eq`
  (an order code is injective and no encoding is a proper prefix of another);
* `IsKindCode`, `cmpLeading` — tuples of components of several kinds, compared with a tuple or
  with leading components only;
* `beBytes` / `ofBeBytes` — fixed-width big-endian numerals and their order code;
* `escape` — bytes terminated by `00 00`, with `00` written `00 01` inside, and its order code.
-/

namespace OrderCode

open List

section General

variable {α β σ : Type} [Ord σ]

/-- Comparing encodings with arbitrary continuations compares the values first. -/
def IsOrderCode (cmp : α → α → Ordering) (enc : α → List σ) : Prop :=
  ∀ a b ra rb, compare (enc a ++ ra) (enc b ++ rb) = (cmp a b).then (compare ra rb)

variable {cmp : α → α → Ordering} {enc : α → List σ} {a b : α}

theorem IsOrderCode.compare_enc
    (h : IsOrderCode cmp enc) (a b : α) : compare (enc a) (enc b) = cmp a b := by
  have := h a b [] []
  simpa [List.compare_nil_nil] using this

/-- **Order codes of a lawful comparison are uniquely decodable in front of anything.** -/
theorem IsOrderCode.eq_of_append_eq [Std.ReflOrd σ]
    (h : IsOrderCode cmp enc) (hcmp : ∀ a b, cmp a b = .eq → a = b)
    {ra rb : List σ} (he : enc a ++ ra = enc b ++ rb) : a = b ∧ ra = rb := by
  have hc := h a b ra rb
  have hab := hcmp a b (by grind)
  subst hab
  exact ⟨rfl, append_cancel_left he⟩

end General

/-! ## Tuples

A tuple is a list of components, each of some kind, and its encoding is that of its components
one after the other.  Components are only ever compared with components of the same kind. -/

section Tuples

variable {α κ σ : Type} [Ord σ] (kind : α → κ) (cmp : α → α → Ordering) (enc : α → List σ)

/-- An order code on the components of each kind. -/
def IsKindCode : Prop :=
  ∀ a b ra rb, kind a = kind b → compare (enc a ++ ra) (enc b ++ rb) = (cmp a b).then (compare ra rb)

/-- A tuple against the leading components of another: equal when it starts with them. -/
def cmpLeading : List α → List α → Ordering
  | _, [] => .eq
  | [], _ :: _ => .lt
  | a :: as, b :: bs => (cmp a b).then (cmpLeading as bs)

variable {kind cmp enc} [Std.ReflOrd σ]

omit [Std.ReflOrd σ] in
theorem IsKindCode.compare_tuple (h : IsKindCode kind cmp enc) : ∀ {as bs : List α},
    as.map kind = bs.map kind → compare (as.flatMap enc) (bs.flatMap enc) = cmpLeading cmp as bs
  | [], [], _ => List.compare_nil_nil
  | a :: as, b :: bs, hk => by
    simp only [List.map_cons, List.cons.injEq] at hk
    simp only [flatMap_cons, cmpLeading]
    rw [h a b _ _ hk.1, h.compare_tuple hk.2]

theorem IsKindCode.compare_lt_iff (h : IsKindCode kind cmp enc) : ∀ {as bs : List α},
    bs.map kind <+: as.map kind →
      (compare (as.flatMap enc) (bs.flatMap enc) = .lt ↔ cmpLeading cmp as bs = .lt)
  | as, [], _ => by
    simp only [List.flatMap_nil, cmpLeading]
    cases as.flatMap enc <;> simp [List.compare_cons_nil]
  | [], _ :: _, hk => by simp at hk
  | a :: as, b :: bs, hk => by
    simp only [map_cons, cons_prefix_cons] at hk
    simp only [flatMap_cons, cmpLeading]
    rw [h a b _ _ hk.1.symm, Ordering.then_eq_lt, Ordering.then_eq_lt, h.compare_lt_iff hk.2]

theorem IsKindCode.prefix_iff (h : IsKindCode kind cmp enc)
    (hcmp : ∀ a b, kind a = kind b → cmp a b = .eq → a = b) : ∀ {as bs : List α},
    bs.map kind <+: as.map kind → (bs.flatMap enc <+: as.flatMap enc ↔ cmpLeading cmp as bs = .eq)
  | as, [], _ => by simp [cmpLeading]
  | [], _ :: _, hk => by simp at hk
  | a :: as, b :: bs, hk => by
    simp only [map_cons, cons_prefix_cons] at hk
    simp only [flatMap_cons, cmpLeading, Ordering.then_eq_eq]
    rw [← h.prefix_iff hcmp hk.2]
    constructor
    · rintro ⟨t, ht⟩
      have hc := h a b (as.flatMap enc) (bs.flatMap enc ++ t) hk.1.symm
      rw [← ht, append_assoc, Std.compare_self] at hc
      have hab := (Ordering.then_eq_eq.mp hc.symm).1
      obtain rfl := hcmp a b hk.1.symm hab
      rw [append_assoc] at ht
      exact ⟨hab, t, append_cancel_left ht⟩
    · rintro ⟨hab, t, ht⟩
      grind

end Tuples

/-! ## Big-endian numerals -/

/-- The `k` big-endian bytes of `n` (of its `k` low-order bytes, when `n` is larger). -/
def beBytes : Nat → Nat → List UInt8
  | 0, _ => []
  | k + 1, n => UInt8.ofNat (n / 256 ^ k) :: beBytes k (n % 256 ^ k)

/-- The number a big-endian byte string denotes. -/
def ofBeBytes (bs : List UInt8) : Nat := bs.foldl (fun acc b => acc * 256 + b.toNat) 0

@[simp] theorem beBytes_length (k n : Nat) : (beBytes k n).length = k := by
  induction k generalizing n with
  | zero => rfl
  | succ k ih => simp [beBytes, ih]

theorem foldl_beBytes (k : Nat) : ∀ (n acc : Nat), n < 256 ^ k →
    (beBytes k n).foldl (fun acc b => acc * 256 + b.toNat) acc = acc * 256 ^ k + n := by
  induction k with
  | zero => intro n acc h; simp [beBytes]; omega
  | succ k ih =>
    intro n acc h
    have hpos : 0 < 256 ^ k := by positivity
    have hq : n / 256 ^ k < 256 := by
      rw [Nat.div_lt_iff_lt_mul hpos, ← pow_succ']; exact h
    have hdm := Nat.div_add_mod n (256 ^ k)
    simp only [beBytes, foldl_cons]
    rw [ih _ _ (Nat.mod_lt _ hpos), UInt8.toNat_ofNat_of_lt' hq, pow_succ]
    grind

variable {n : Nat}

theorem ofBeBytes_beBytes {k : Nat} (h : n < 256 ^ k) : ofBeBytes (beBytes k n) = n := by
  unfold ofBeBytes
  rw [foldl_beBytes k n 0 h]; simp

theorem ofNat_mod_div {i k : Nat} (hi : i < k) :
    UInt8.ofNat (n % 256 ^ k / 256 ^ i) = UInt8.ofNat (n / 256 ^ i) := by
  obtain ⟨j, rfl⟩ : ∃ j, k = i + (j + 1) := ⟨k - i - 1, by omega⟩
  apply UInt8.toNat_inj.mp
  rw [pow_add, Nat.mod_mul_right_div_self]
  simp

theorem beBytes_eq_map_range (k : Nat) : ∀ n : Nat,
    beBytes k n = (List.range k).reverse.map (fun i => UInt8.ofNat (n / 256 ^ i)) := by
  induction k with
  | zero => intro n; rfl
  | succ k ih =>
    intro n
    rw [range_succ, reverse_append, reverse_singleton, singleton_append, map_cons, beBytes, ih]
    refine congrArg _ (map_congr_left ?_)
    intro i hi
    exact ofNat_mod_div (by simpa using hi)

theorem compare_div_mod {m b : Nat} :
    compare m n = (compare (m / b) (n / b)).then (compare (m % b) (n % b)) := by
  rcases Nat.eq_zero_or_pos b with rfl | hb
  · simp
  have hm := Nat.div_add_mod m b
  have hn := Nat.div_add_mod n b
  have hmb := Nat.mod_lt m hb
  have hnb := Nat.mod_lt n hb
  rcases lt_trichotomy (m / b) (n / b) with h | h | h
  · have : b * (m / b) + b ≤ b * (n / b) := by nlinarith
    rw [Nat.compare_eq_lt.mpr h, Nat.compare_eq_lt.mpr (by omega)]; rfl
  · rw [h] at hm
    rw [Nat.compare_eq_eq.mpr h]
    simp only [Ordering.eq_then]
    rcases lt_trichotomy (m % b) (n % b) with h' | h' | h'
    · rw [Nat.compare_eq_lt.mpr h', Nat.compare_eq_lt.mpr (by omega)]
    · grind
    · rw [Nat.compare_eq_gt.mpr h', Nat.compare_eq_gt.mpr (by omega)]
  · have : b * (n / b) + b ≤ b * (m / b) := by nlinarith
    rw [Nat.compare_eq_gt.mpr h, Nat.compare_eq_gt.mpr (by omega)]; rfl

theorem compare_beBytes_append (k : Nat) : ∀ {m n : Nat} (ra rb : List UInt8),
    m < 256 ^ k → n < 256 ^ k →
    compare (beBytes k m ++ ra) (beBytes k n ++ rb) = (compare m n).then (compare ra rb) := by
  induction k with
  | zero =>
    intro m n ra rb hm hn
    have : m = n := by omega
    subst this
    simp [beBytes]
  | succ k ih =>
    intro m n ra rb hm hn
    have hpos : 0 < 256 ^ k := by positivity
    have hqm : m / 256 ^ k < 256 := by
      rw [Nat.div_lt_iff_lt_mul hpos, ← pow_succ']; exact hm
    have hqn : n / 256 ^ k < 256 := by
      rw [Nat.div_lt_iff_lt_mul hpos, ← pow_succ']; exact hn
    simp only [beBytes, List.cons_append]
    rw [List.compare_cons_cons, ih _ _ (Nat.mod_lt _ hpos) (Nat.mod_lt _ hpos), UInt8.compare_eq_toNat_compare_toNat,
      UInt8.toNat_ofNat_of_lt' hqm, UInt8.toNat_ofNat_of_lt' hqn, ← Ordering.then_assoc, ← compare_div_mod]

/-! ## Escaped byte strings -/

/-- `00` is written `00 01`; the string ends with `00 00`. -/
def escape : List UInt8 → List UInt8
  | [] => [0, 0]
  | b :: bs => if b = 0 then 0 :: 1 :: escape bs else b :: escape bs

theorem compare_zero_lt {b : UInt8} (h : b ≠ 0) : compare 0 b = .lt := by
  rw [Std.compare_eq_lt]
  exact UInt8.pos_iff_ne_zero.mpr h

theorem compare_zero_gt {b : UInt8} (h : b ≠ 0) : compare b 0 = .gt := by
  rw [Std.OrientedOrd.eq_swap, compare_zero_lt h]; rfl

attribute [local simp] escape List.compare_cons_cons

/-- **Escaping is an order code for the lexicographic order of byte strings.** -/
theorem isOrderCode_escape : IsOrderCode (compare : List UInt8 → List UInt8 → Ordering) escape := by
  intro a
  induction a with
  | nil =>
    intro b ra rb
    cases b with
    | nil => simp
    | cons y ys =>
      by_cases hy : y = 0
      · subst hy
        simp [List.compare_nil_cons, show compare (0 : UInt8) 1 = .lt from rfl]
      · simp [hy, List.compare_nil_cons, compare_zero_lt hy]
  | cons x xs ih =>
    intro b ra rb
    cases b with
    | nil =>
      by_cases hx : x = 0
      · subst hx
        simp [List.compare_cons_nil, show compare (1 : UInt8) 0 = .gt from rfl]
      · simp [hx, List.compare_cons_nil, compare_zero_gt hx]
    | cons y ys =>
      by_cases hx : x = 0 <;> by_cases hy : y = 0
      · subst hx; subst hy
        simp [ih]
      · subst hx
        simp [hy, compare_zero_lt hy]
      · subst hy
        simp [hx, compare_zero_gt hx]
      · simp [hx, hy, ih, Ordering.then_assoc]

end OrderCode
