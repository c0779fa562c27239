import Mathlib.Data.Set.List

/-!
# Three-way comparisons that are orders on a class

A comparison need not be an order everywhere to be one on the values that a program compares.

* `TotalOn cmp D` — on `D`, turning the arguments around turns the result around, and "not greater"
  is transitive;
* `TotalOn.of_kind` — comparing by kind first, and within a kind by an order of its own;
* `TotalOn.lex` — comparing lists item by item.
-/

namespace Comparison

open Std

variable {α : Type} {cmp : α → α → Ordering} {D : Set α}

/-- The comparison is a total preorder on the class. -/
@[grind cases]
structure TotalOn (cmp : α → α → Ordering) (D : Set α) : Prop where
  swap : ∀ x ∈ D, ∀ y ∈ D, cmp x y = (cmp y x).swap
  trans : ∀ x ∈ D, ∀ y ∈ D, ∀ z ∈ D, (cmp x y).isLE = true → (cmp y z).isLE = true →
    (cmp x z).isLE = true

theorem TotalOn.transCmp (h : TotalOn cmp D) : TransCmp (fun x y : D => cmp x y) where
  eq_swap {x y} := h.swap x x.2 y y.2
  isLE_trans {x y z} := h.trans x x.2 y y.2 z z.2

theorem TotalOn.lt_trans (h : TotalOn cmp D) {x y z : α} (hx : x ∈ D) (hy : y ∈ D) (hz : z ∈ D)
    (hxy : cmp x y = .lt) (hyz : cmp y z = .lt) : cmp x z = .lt :=
  @TransCmp.lt_trans D (fun x y : D => cmp x y) h.transCmp ⟨x, hx⟩ ⟨y, hy⟩ ⟨z, hz⟩ hxy hyz

theorem TotalOn.lt_of_eq_of_lt (h : TotalOn cmp D) {x y z : α} (hx : x ∈ D) (hy : y ∈ D)
    (hz : z ∈ D) (hxy : cmp x y = .eq) (hyz : cmp y z = .lt) : cmp x z = .lt :=
  @TransCmp.lt_of_eq_of_lt D (fun x y : D => cmp x y) h.transCmp ⟨x, hx⟩ ⟨y, hy⟩ ⟨z, hz⟩ hxy hyz

theorem TotalOn.of_kind (kind : α → Nat)
    (hkind : ∀ x ∈ D, ∀ y ∈ D, kind x ≠ kind y → cmp x y = compare (kind x) (kind y))
    (hsame : ∀ k, TotalOn cmp {x | x ∈ D ∧ kind x = k}) : TotalOn cmp D := by
  refine ⟨?_, ?_⟩
  · intro x hx y hy
    by_cases hxy : kind x = kind y
    · exact (hsame (kind x)).swap x ⟨hx, rfl⟩ y ⟨hy, hxy.symm⟩
    · rw [hkind x hx y hy hxy, hkind y hy x hx (Ne.symm hxy)]
      exact OrientedOrd.eq_swap
  · intro x hx y hy z hz hxy hyz
    have hle : ∀ u ∈ D, ∀ v ∈ D, (cmp u v).isLE = true → kind u ≤ kind v := by
      intro u hu v hv h
      by_cases huv : kind u = kind v
      · exact Nat.le_of_eq huv
      · rw [hkind u hu v hv huv] at h
        exact Nat.isLE_compare.mp h
    by_cases hxz : kind x = kind z
    · have h1 := hle x hx y hy hxy
      have h2 := hle y hy z hz hyz
      exact (hsame (kind x)).trans x ⟨hx, rfl⟩ y ⟨hy, by omega⟩ z ⟨hz, hxz.symm⟩ hxy hyz
    · rw [hkind x hx z hz hxz]
      exact Nat.isLE_compare.mpr ((hle x hx y hy hxy).trans (hle y hy z hz hyz))

theorem compareLex_map_val : ∀ xs ys : List D,
    List.compareLex cmp (xs.map Subtype.val) (ys.map Subtype.val) =
      List.compareLex (fun x y : D => cmp x y) xs ys
  | [], [] | [], _ :: _ | _ :: _, [] => rfl
  | x :: xs, y :: ys => by
    simp only [List.map_cons, List.compareLex_cons_cons, compareLex_map_val xs ys]

theorem TotalOn.lex (h : TotalOn cmp D) : TotalOn (List.compareLex cmp) {xs | ∀ x ∈ xs, x ∈ D} := by
  have := h.transCmp
  refine ⟨?_, ?_⟩
  · intro xs hxs ys hys
    lift xs to List D using hxs
    lift ys to List D using hys
    rw [compareLex_map_val, compareLex_map_val]
    exact OrientedCmp.eq_swap
  · intro xs hxs ys hys zs hzs
    lift xs to List D using hxs
    lift ys to List D using hys
    lift zs to List D using hzs
    rw [compareLex_map_val, compareLex_map_val, compareLex_map_val]
    exact TransCmp.isLE_trans

end Comparison
