import Clojurust.Lib.StateExcept
import Mathlib.Data.List.Forall2

/-!
# Traversals of lists

A computation for each element of a list, from the first to the last.

* `mapM_congr` — a traversal depends on what is done for the elements;
* `mapM_eq_ok_iff`, `mapM_cases` — a traversal with errors returns if every element does, and fails
  if that of an element does;
* `wp_mapM`, `wp_mapM_invariant`, `wp_foldlM`, `wp_forM` — a specification for each element is
  one for the traversal.
-/

namespace Traversal

open StateExcept List

variable {ε σ α β γ : Type}

theorem mapM_congr {m : Type → Type} [Monad m] [LawfulMonad m] {f g : α → m β} :
    ∀ {l : List α}, (∀ x ∈ l, f x = g x) → l.mapM f = l.mapM g
  | [], _ => rfl
  | x :: l, h => by
    simp only [forall_mem_cons] at h
    rw [mapM_cons, mapM_cons, h.1, mapM_congr h.2]

/-! ## Errors -/

variable {f : α → Except ε β} {E : ε → σ → Prop}

theorem bind_eq_ok {x : Except ε α} {b : β} (h : (x >>= f) = .ok b) :
    ∃ a, x = .ok a ∧ f a = .ok b := by
  cases x with
  | error e => cases h
  | ok a => exact ⟨a, rfl, h⟩

theorem mapM_eq_ok_iff : ∀ {l : List α} {l' : List β},
    l.mapM f = .ok l' ↔ List.Forall₂ (fun x y => f x = .ok y) l l'
  | [], l' => by
    rw [mapM_nil, List.forall₂_nil_left_iff]
    exact ⟨fun h => (Except.ok.inj h).symm, fun h => by rw [h]; rfl⟩
  | x :: l, l' => by
    rw [mapM_cons, List.forall₂_cons_left_iff]
    constructor
    · intro h
      obtain ⟨y, hx, hrest⟩ := bind_eq_ok h
      obtain ⟨ys, hl, hys⟩ := bind_eq_ok hrest
      cases hys
      exact ⟨y, ys, hx, mapM_eq_ok_iff.mp hl, rfl⟩
    · rintro ⟨y, ys, hx, hl, rfl⟩
      rw [hx, mapM_eq_ok_iff.mpr hl]
      rfl

theorem mapM_cases {e : ε} {P : α → Prop} : ∀ {l : List α},
    (∀ x ∈ l, ((∃ y, f x = .ok y) ∧ ¬ P x) ∨ (f x = .error e ∧ P x)) →
    ((∃ l', l.mapM f = .ok l') ∧ ¬ ∃ x ∈ l, P x) ∨ (l.mapM f = .error e ∧ ∃ x ∈ l, P x)
  | [], _ => .inl ⟨⟨[], rfl⟩, by simp⟩
  | x :: l, h => by
    simp only [forall_mem_cons] at h
    simp only [mapM_cons, exists_mem_cons_iff, not_or]
    rcases h.1 with ⟨⟨y, hy⟩, hnot⟩ | ⟨hx, hP⟩
    · rw [hy]
      rcases mapM_cases h.2 with ⟨⟨l', hl'⟩, hnone⟩ | ⟨hl, hsome⟩
      · rw [hl']
        exact .inl ⟨⟨y :: l', rfl⟩, hnot, hnone⟩
      · rw [hl]
        exact .inr ⟨rfl, .inr hsome⟩
    · rw [hx]
      exact .inr ⟨rfl, .inl hP⟩

/-! ## Specifications -/

theorem wp_mapM {f : β → EStateM ε σ γ} {R : α → γ → Prop} {l : List α}
    {l' : List β} (h : List.Forall₂ (fun x y => ∀ s, wp (f y) (fun z _ => R x z) E s) l l') :
    ∀ s, wp (l'.mapM f) (fun zs _ => List.Forall₂ R l zs) E s := by
  induction h with
  | nil => exact fun s => List.Forall₂.nil
  | @cons x y l l' hxy _ ih =>
    intro s
    rw [mapM_cons]
    refine wp_seq (hxy s) ?_
    intro z s' hz
    refine wp_seq (ih s') ?_
    intro zs s'' hzs
    exact .cons hz hzs

theorem wp_mapM_invariant {f : α → EStateM ε σ β} {R : α → β → Prop} {I : σ → Prop} :
    ∀ {l : List α}, (∀ x ∈ l, ∀ s, I s → wp (f x) (fun y s' => I s' ∧ R x y) E s) →
      ∀ s, I s → wp (l.mapM f) (fun ys s' => I s' ∧ List.Forall₂ R l ys) E s
  | [], _, _, hs => ⟨hs, .nil⟩
  | x :: l, h, s, hs => by
    rw [mapM_cons]
    refine wp_seq (h x mem_cons_self s hs) ?_
    rintro y s1 ⟨hs1, hy⟩
    refine wp_seq (wp_mapM_invariant (fun z hz => h z (.tail _ hz)) s1 hs1) ?_
    rintro ys s2 ⟨hs2, hys⟩
    exact ⟨hs2, .cons hy hys⟩

theorem wp_foldlM {f : β → α → EStateM ε σ β} {R : List α → β → Prop} :
    ∀ {l seen : List α} {acc : β}, (∀ x ∈ l, ∀ seen acc, R seen acc →
      ∀ s, wp (f acc x) (fun acc' _ => R (seen ++ [x]) acc') E s) → R seen acc →
      ∀ s, wp (l.foldlM f acc) (fun acc' _ => R (seen ++ l) acc') E s
  | [], seen, acc, _, hacc, s => by
    rw [append_nil]
    exact hacc
  | x :: l, seen, acc, h, hacc, s => by
    refine wp_seq (h x mem_cons_self seen acc hacc s) ?_
    intro acc' s' hacc'
    have hrest := wp_foldlM (fun y hy => h y (.tail _ hy)) hacc' s'
    grind

theorem wp_forM {f : α → EStateM ε σ PUnit} {R : List α → σ → Prop} :
    ∀ {l seen : List α} {s : σ}, (∀ x ∈ l, ∀ seen s, R seen s →
      wp (f x) (fun _ => R (seen ++ [x])) E s) → R seen s → wp (l.forM f) (fun _ => R (seen ++ l)) E s
  | [], seen, s, _, hs => by
    rw [append_nil]
    exact hs
  | x :: l, seen, s, h, hs => by
    refine wp_seq (h x mem_cons_self seen s hs) ?_
    intro _ s' hs'
    have hrest := wp_forM (fun y hy => h y (.tail _ hy)) hs'
    grind

end Traversal
