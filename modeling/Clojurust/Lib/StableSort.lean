import Mathlib.Order.RelClasses
import Clojurust.Lib.StateExcept

/-!
# Stable sorting by a strict weak order

Two elements are tied if neither is less than the other. A list is sorted stably if tied elements keep
their order.

* `StablySorts lt xs ys` — `ys` is the list `xs`, sorted stably;
* `StablySorts.merge`, `StablySorts.map` — merging sorted lists, and sorting positions for items;
* `Sorter` — what a library promises about a sorting procedure that calls a stateful comparison.
-/

namespace StableSort

open List Bool

variable {α β : Type} {lt : α → α → Bool}

/-- A strict weak order that can be decided. -/
abbrev Weak (lt : α → α → Bool) : Prop := IsStrictWeakOrder α fun a b => lt a b = true

def tied (lt : α → α → Bool) (a b : α) : Bool := !lt a b && !lt b a

theorem tied_iff {a b : α} : tied lt a b = true ↔ lt a b = false ∧ lt b a = false := by
  rw [tied, and_eq_true, not_eq_true', not_eq_true']

section Weak

variable (h : Weak lt) {a b c : α}
include h

theorem Weak.lt_self (a : α) : lt a a = false := eq_false_iff.mpr (h.irrefl a)

theorem Weak.asymm (hab : lt a b = true) : lt b a = false :=
  eq_false_iff.mpr fun hba => h.irrefl a (h.trans a b a hab hba)

theorem Weak.not_lt_trans (hba : lt b a = false) (hcb : lt c b = false) : lt c a = false := by
  by_contra hca
  rw [not_eq_false] at hca
  have hab : ¬ lt a b = true := fun hab => eq_false_iff.mp hcb (h.trans c a b hca hab)
  have hbc : ¬ lt b c = true := fun hbc => eq_false_iff.mp hba (h.trans b c a hbc hca)
  exact (h.incomp_trans c b a ⟨eq_false_iff.mp hcb, hbc⟩ ⟨eq_false_iff.mp hba, hab⟩).1 hca

theorem Weak.lt_of_lt_of_not_lt (hab : lt a b = true) (hcb : lt c b = false) : lt a c = true := by
  by_contra hac
  exact eq_false_iff.mp (h.not_lt_trans hcb (eq_false_iff.mpr hac)) hab

theorem Weak.lt_of_not_lt_of_lt (hba : lt b a = false) (hbc : lt b c = true) : lt a c = true := by
  by_contra hac
  exact eq_false_iff.mp (h.not_lt_trans (eq_false_iff.mpr hac) hba) hbc

theorem Weak.tied_self (a : α) : tied lt a a = true := tied_iff.mpr ⟨h.lt_self a, h.lt_self a⟩

theorem Weak.tied_trans (hab : tied lt a b = true) (hbc : tied lt b c = true) : tied lt a c = true := by
  rw [tied_iff] at hab hbc ⊢
  exact ⟨h.not_lt_trans hbc.1 hab.1, h.not_lt_trans hab.2 hbc.2⟩

end Weak

theorem tied_comm (a b : α) : tied lt a b = tied lt b a := and_comm _ _

theorem Weak.preimage (h : Weak lt) (f : β → α) : Weak fun a b => lt (f a) (f b) where
  irrefl a := h.irrefl (f a)
  trans a b c := h.trans (f a) (f b) (f c)
  incomp_trans a b c := h.incomp_trans (f a) (f b) (f c)

/-- The order in which all elements are tied. -/
theorem weak_false : Weak fun _ _ : α => false where
  irrefl _ h := nomatch h
  trans _ _ _ h := nomatch h
  incomp_trans _ _ _ hab _ := hab

/-! ## Sorted lists -/

/-- The list `ys` is `xs`, sorted stably. -/
@[grind cases]
structure StablySorts (lt : α → α → Bool) (xs ys : List α) : Prop where
  perm : ys.Perm xs
  sorted : ys.Pairwise fun a b => lt b a = false
  stable : ∀ x, ys.filter (tied lt x) = xs.filter (tied lt x)

theorem StablySorts.short {xs : List α} (h : xs.length ≤ 1) : StablySorts lt xs xs where
  perm := .refl xs
  sorted := by
    match xs, h with
    | [], _ => exact .nil
    | [x], _ => exact pairwise_singleton _ x
  stable _ := rfl

section Merge

variable (h : Weak lt)
include h

theorem filter_merge (x : α) : ∀ {xs ys : List α}, (xs.Pairwise fun a b => lt b a = false) →
    (xs.merge ys fun a b => !lt b a).filter (tied lt x) =
      xs.filter (tied lt x) ++ ys.filter (tied lt x)
  | [], ys, _ | a :: xs, [], _ => by simp
  | a :: xs, b :: ys, hxs => by
    cases hba : lt b a with
    | false =>
      rw [cons_merge_cons_pos _ _ _ (by rw [hba]; rfl), filter_cons, filter_cons,
        filter_merge x hxs.of_cons]
      split <;> rfl
    | true =>
      rw [cons_merge_cons_neg _ _ _ (by rw [hba]; decide), filter_cons, filter_merge x hxs]
      by_cases hb : tied lt x b = true
      · -- everything in the first list is greater than `b`
        have hnone : (a :: xs).filter (tied lt x) = [] := by
          rw [filter_eq_nil_iff]
          intro z hz htied
          have hza : lt z a = false := by
            rcases mem_cons.mp hz with rfl | hz
            · exact h.lt_self z
            · exact rel_of_pairwise_cons hxs hz
          have hbz := h.lt_of_lt_of_not_lt hba hza
          rw [(tied_iff.mp (h.tied_trans ((tied_comm b x).trans hb) htied)).1] at hbz
          cases hbz
        grind
      · rw [if_neg hb, filter_cons_of_neg hb]

theorem StablySorts.merge {xs ys us vs : List α} (hxs : StablySorts lt us xs)
    (hys : StablySorts lt vs ys) : StablySorts lt (us ++ vs) (xs.merge ys fun a b => !lt b a) where
  perm := (merge_perm_append _).trans (hxs.perm.append hys.perm)
  sorted := by
    have htrans : ∀ a b c, (!lt b a) = true → (!lt c b) = true → (!lt c a) = true := by
      intro a b c hba hcb
      rw [not_eq_true'] at hba hcb ⊢
      exact h.not_lt_trans hba hcb
    have htotal : ∀ a b, ((!lt b a) || (!lt a b)) = true := by
      intro a b
      cases hab : lt a b with
      | false => exact or_true _
      | true => rw [h.asymm hab]; rfl
    have hsorted := pairwise_merge htrans htotal xs ys
      (hxs.sorted.imp fun hba => by rw [hba]; rfl) (hys.sorted.imp fun hba => by rw [hba]; rfl)
    grind
  stable x := by
    rw [filter_merge h x hxs.sorted, hxs.stable, hys.stable, filter_append]

theorem StablySorts.map {f : β → α} {xs ys : List β}
    (hys : StablySorts (fun a b => lt (f a) (f b)) xs ys) : StablySorts lt (xs.map f) (ys.map f) where
  perm := hys.perm.map f
  sorted := pairwise_map.mpr hys.sorted
  stable x := by
    rw [filter_map, filter_map]
    by_cases hclass : ∃ i ∈ xs, tied lt x (f i) = true
    · obtain ⟨i, -, hi⟩ := hclass
      have hsame : tied lt x ∘ f = tied (fun a b => lt (f a) (f b)) i := by
        funext j
        exact eq_iff_iff.mpr ⟨h.tied_trans ((tied_comm _ _).trans hi), h.tied_trans hi⟩
      rw [hsame, hys.stable i]
    · have hnone : xs.filter (tied lt x ∘ f) = [] :=
        filter_eq_nil_iff.mpr fun i hi htied => hclass ⟨i, hi, htied⟩
      have hnone' : ys.filter (tied lt x ∘ f) = [] :=
        filter_eq_nil_iff.mpr fun i hi htied => hclass ⟨i, hys.perm.mem_iff.mp hi, htied⟩
      rw [hnone, hnone']

end Merge

theorem merge_swap : ∀ xs ys : List α, xs.merge ys lt = ys.merge xs fun a b => !lt b a
  | [], ys | a :: xs, [] => by rw [nil_merge, merge_right]
  | a :: xs, b :: ys => by
    cases hab : lt a b with
    | false =>
      rw [cons_merge_cons_neg _ _ _ (by rw [hab]; decide),
        cons_merge_cons_pos _ _ _ (by rw [hab]; rfl), merge_swap (a :: xs) ys]
    | true =>
      rw [cons_merge_cons_pos _ _ _ hab, cons_merge_cons_neg _ _ _ (by rw [hab]; decide),
        merge_swap xs (b :: ys)]

/-! ## Libraries -/

open StateExcept

/-- A procedure of a library that sorts with the answers of `isLess`. Whatever it calls `isLess` for,
it calls it on elements of the list: not at all if there is nothing to compare, and at least once if there
are two elements. It may abort, unless all answers are those of one strict weak order: then it sorts the
list stably. -/
structure Sorter (ε : Type) (aborts : ε → Prop) where
  run : {α τ : Type} → (α → α → EStateM ε τ Bool) → List α → EStateM ε τ (List α)
  sorts : ∀ {α τ : Type} {lt : α → α → Bool} {isLess : α → α → EStateM ε τ Bool} {xs : List α}
    {I : τ → Prop}, Weak lt →
    (∀ a ∈ xs, ∀ b ∈ xs, ∀ t, I t →
      wp (isLess a b) (fun o t' => I t' ∧ o = lt a b) (fun _ _ => False) t) →
    ∀ t, I t → wp (run isLess xs) (fun ys t' => I t' ∧ StablySorts lt xs ys) (fun _ _ => False) t
  keeps : ∀ {α τ : Type} {isLess : α → α → EStateM ε τ Bool} {xs : List α} {I : τ → Prop}
    {E : ε → τ → Prop}, (∀ a ∈ xs, ∀ b ∈ xs, ∀ t, I t → wp (isLess a b) (fun _ => I) E t) →
    ∀ t, I t → wp (run isLess xs) (fun _ => I) (fun e t' => E e t' ∨ aborts e) t
  short : ∀ {α τ : Type} (isLess : α → α → EStateM ε τ Bool) {xs : List α}, xs.length ≤ 1 →
    run isLess xs = pure xs
  asks : ∀ {α τ : Type} {isLess : α → α → EStateM ε τ Bool} {xs : List α} {P : τ → Prop},
    (∀ a ∈ xs, ∀ b ∈ xs, ∀ t, wp (isLess a b) (fun _ => P) (fun _ _ => True) t) → 2 ≤ xs.length →
    ∀ t, wp (run isLess xs) (fun _ => P) (fun _ _ => True) t

end StableSort
