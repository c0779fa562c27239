import Mathlib.Data.List.Perm.Basic

/-!
# Matchings between lists

Two lists of the same length, where every element of the first is related to one of the second and
no two are related to the same one, are related element by element after a reordering.

* `EquivOn r K` — a comparison is an equivalence on a set; `EquivOn.of_cancel` — one law that is enough;
* `Matches M l l'` — some reordering of `l'` is related to `l` element by element;
* `matches_of_injective` — the pigeonhole principle;
* `Matches.exists_left`, `Matches.perm_map` — what it gives;
* `pairwise_of_forall₂`, `forall_exists_of_forall₂` — what carries over between lists that are related
  element by element.
-/

namespace Matching

open List

/-- The comparison is an equivalence on the set. -/
@[grind cases]
structure EquivOn {α : Type*} (r : α → α → Bool) (K : Set α) : Prop where
  refl : ∀ x ∈ K, r x x = true
  symm : ∀ x ∈ K, ∀ y ∈ K, r x y = true → r y x = true
  trans : ∀ x ∈ K, ∀ y ∈ K, ∀ z ∈ K, r x y = true → r y z = true → r x z = true

section

variable {α : Type*} {r : α → α → Bool} {K : Set α}

theorem EquivOn.of_cancel (hrefl : ∀ x ∈ K, r x x = true)
    (hcancel : ∀ z ∈ K, ∀ x ∈ K, ∀ y ∈ K, r z x = true → r z y = true → r x y = true) :
    EquivOn r K := by
  have hsymm : ∀ x ∈ K, ∀ y ∈ K, r x y = true → r y x = true :=
    fun x hx y hy h => hcancel x hx y hy x hx h (hrefl x hx)
  exact ⟨hrefl, hsymm, fun x hx y hy z hz h h' => hcancel y hy x hx z hz (hsymm x hx y hy h) h'⟩

variable (h : EquivOn r K)
include h

theorem EquivOn.mono {K' : Set α} (hsub : K' ⊆ K) : EquivOn r K' :=
  ⟨fun x hx => h.refl x (hsub hx), fun x hx y hy => h.symm x (hsub hx) y (hsub hy),
    fun x hx y hy z hz => h.trans x (hsub hx) y (hsub hy) z (hsub hz)⟩

theorem EquivOn.left_cancel
    {x y z : α} (hx : x ∈ K) (hy : y ∈ K) (hz : z ∈ K) (hzx : r z x = true) (hzy : r z y = true) :
    r x y = true :=
  h.trans x hx z hz y hy (h.symm z hz x hx hzx) hzy

theorem EquivOn.right_cancel {x y z : α} (hx : x ∈ K) (hy : y ∈ K) (hz : z ∈ K) (hxz : r x z = true)
    (hyz : r y z = true) : r x y = true :=
  h.trans x hx z hz y hy hxz (h.symm y hy z hz hyz)

end

variable {α β γ δ : Type*} {M : α → β → Prop}

variable {l : List α} {l' : List β}

theorem pairwise_or {R : α → α → Prop} (h : l.Pairwise R) {x y : α} (hx : x ∈ l)
    (hy : y ∈ l) (hne : x ≠ y) : R x y ∨ R y x := by
  induction h with
  | nil => cases hx
  | @cons a l hhead _ ih => grind

/-- Some reordering of the second list is related to the first, element by element. -/
def Matches (M : α → β → Prop) (l : List α) (l' : List β) : Prop :=
  ∃ l'', List.Forall₂ M l l'' ∧ l''.Perm l'

/-- **Pigeonhole**: an injective choice between lists of the same length is a matching. -/
theorem matches_of_injective : ∀ {l : List α} {l' : List β}, l.length = l'.length →
    (∀ x ∈ l, ∃ y ∈ l', M x y) → l.Pairwise (fun x x' => ∀ y ∈ l', M x y → ¬ M x' y) →
    Matches M l l'
  | [], l', hlen, _, _ => ⟨[], .nil, by rw [length_eq_zero_iff.mp hlen.symm]⟩
  | x :: l, l', hlen, htotal, hinj => by
    obtain ⟨y, hy, hxy⟩ := htotal x (.head _)
    obtain ⟨s, t, rfl⟩ := append_of_mem hy
    rw [pairwise_cons] at hinj
    have hrest : Matches M l (s ++ t) := by
      refine matches_of_injective ?_ ?_ ?_
      · grind
      · intro x' hx'
        obtain ⟨y', hy', hxy'⟩ := htotal x' (.tail _ hx')
        -- `y` is taken by `x`
        have hne : y' ≠ y := by
          rintro rfl
          exact hinj.1 x' hx' y' hy' hxy hxy'
        simp only [mem_append, mem_cons] at hy' ⊢
        exact ⟨y', by tauto, hxy'⟩
      · refine hinj.2.imp ?_
        grind
    obtain ⟨l'', hrel, hperm⟩ := hrest
    exact ⟨y :: l'', .cons hxy hrel, (hperm.cons y).trans perm_middle.symm⟩

section

variable (h : List.Forall₂ M l l')
include h

theorem exists_left_of_forall₂ : ∀ y ∈ l', ∃ x ∈ l, M x y := by
  induction h with
  | nil => simp
  | @cons x y l l' hxy _ ih => grind

theorem exists_right_of_forall₂ : ∀ x ∈ l, ∃ y ∈ l', M x y :=
  exists_left_of_forall₂ (M := flip M) (List.Forall₂.flip h)

theorem pairwise_of_forall₂ {P : α → α → Prop} {P' : β → β → Prop} (hP : l.Pairwise P)
    (himp : ∀ x ∈ l, ∀ y ∈ l, ∀ x' y', M x x' → M y y' → P x y → P' x' y') : l'.Pairwise P' := by
  induction h with
  | nil => exact .nil
  | @cons x x' l l' hx hrest ih =>
    rw [pairwise_cons] at hP ⊢
    refine ⟨?_, ih hP.2 fun a ha b hb => himp a (.tail _ ha) b (.tail _ hb)⟩
    intro y' hy'
    obtain ⟨y, hy, hyy'⟩ := exists_left_of_forall₂ hrest y' hy'
    grind

theorem foldl_of_forall₂ {f : γ → α → γ} {g : γ → β → γ}
    (hstep : ∀ x ∈ l, ∀ x', M x x' → ∀ acc, g acc x' = f acc x) {acc : γ} :
    l'.foldl g acc = l.foldl f acc := by
  induction h generalizing acc with
  | nil => rfl
  | @cons x x' l l' hx _ ih => grind

theorem forall_exists_of_forall₂ {N : γ → δ → Prop} {P : α → γ → Prop} {P' : β → δ → Prop}
    {r : List γ} {r' : List δ}
    (h' : List.Forall₂ N r r')
    (hiff : ∀ x ∈ l, ∀ y ∈ r, ∀ x' y', M x x' → N y y' → (P' x' y' ↔ P x y)) :
    (∀ x' ∈ l', ∃ y' ∈ r', P' x' y') ↔ ∀ x ∈ l, ∃ y ∈ r, P x y := by
  constructor
  · intro hall x hx
    obtain ⟨x', hx', hxx'⟩ := exists_right_of_forall₂ h x hx
    obtain ⟨y', hy', hP⟩ := hall x' hx'
    obtain ⟨y, hy, hyy'⟩ := exists_left_of_forall₂ h' y' hy'
    grind
  · intro hall x' hx'
    obtain ⟨x, hx, hxx'⟩ := exists_left_of_forall₂ h x' hx'
    obtain ⟨y, hy, hP⟩ := hall x hx
    obtain ⟨y', hy', hyy'⟩ := exists_right_of_forall₂ h' y hy
    grind

end

theorem Matches.exists_left (h : Matches M l l') : ∀ y ∈ l', ∃ x ∈ l, M x y := by
  obtain ⟨l'', hrel, hperm⟩ := h
  intro y hy
  exact exists_left_of_forall₂ hrel y (hperm.mem_iff.mpr hy)

theorem Matches.perm_map (h : Matches M l l') {f : α → γ} {g : β → γ}
    (hfg : ∀ x ∈ l, ∀ y ∈ l', M x y → f x = g y) : (l.map f).Perm (l'.map g) := by
  obtain ⟨l'', hrel, hperm⟩ := h
  have hmap : l.map f = l''.map g := by
    have hmem : ∀ y ∈ l'', y ∈ l' := fun y hy => hperm.mem_iff.mp hy
    clear hperm
    induction hrel with
    | nil => rfl
    | @cons x y l l'' hxy _ ih => grind
  grind

end Matching
