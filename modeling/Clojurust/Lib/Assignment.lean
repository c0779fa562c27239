import Mathlib.Logic.Function.Basic

/-!
# Sequential and parallel assignment

A list of moves `(d, s)` assigns to each destination `d` the value of its source `s`.  Done one
after the other, a move may read a destination that an earlier one has already overwritten.

* `seq` — one after the other, `par` — all from the values before;
* `seq_eq_par_iff` — for distinct destinations the two agree exactly when every move that reads
  an earlier destination finds there the value it would have found before.
-/

namespace Assignment

open List

variable {κ α : Type} [DecidableEq κ]

/-- Assign one after the other. -/
def seq : List (κ × κ) → (κ → α) → κ → α
  | [], f => f
  | (d, s) :: moves, f => seq moves (Function.update f d (f s))

/-- Assign all at once. -/
def par (moves : List (κ × κ)) (f : κ → α) (k : κ) : α :=
  match moves.lookup k with
  | some s => f s
  | none => f k

/-- A later move `b` that reads the destination of `a` reads the value it had before. -/
def Undisturbed (f : κ → α) (a b : κ × κ) : Prop := b.2 = a.1 → f a.2 = f b.2

instance [DecidableEq α] (f : κ → α) (a b : κ × κ) : Decidable (Undisturbed f a b) :=
  inferInstanceAs (Decidable (b.2 = a.1 → f a.2 = f b.2))

theorem seq_of_notMem : ∀ {moves : List (κ × κ)} {f : κ → α} {k : κ},
    k ∉ moves.map Prod.fst → seq moves f k = f k
  | [], _, _, _ => rfl
  | (d, s) :: moves, f, k, h => by
    simp only [map_cons, mem_cons, not_or] at h
    rw [seq, seq_of_notMem h.2, Function.update_of_ne h.1]

variable {moves : List (κ × κ)} {f : κ → α} {d s : κ} {done : List (κ × κ)} {g : κ → α}

theorem lookup_of_notMem {k : κ} (h : k ∉ moves.map Prod.fst) : moves.lookup k = none := by
  grind

theorem par_of_notMem {k : κ} (h : k ∉ moves.map Prod.fst) : par moves f k = f k := by
  simp only [par, lookup_of_notMem h]

theorem par_of_mem (hnodup : (moves.map Prod.fst).Nodup)
    (h : (d, s) ∈ moves) : par moves f d = f s := by
  induction moves with
  | nil => cases h
  | cons m moves ih =>
    obtain ⟨d', s'⟩ := m
    simp only [map_cons, nodup_cons] at hnodup
    rcases mem_cons.mp h with heq | hmem
    · cases heq
      simp [par]
    · have hne : d ≠ d' := by
        rintro rfl
        exact hnodup.1 (mem_map_of_mem hmem)
      rw [← ih hnodup.2 hmem]
      simp [par, lookup_cons, beq_false_of_ne hne]

theorem par_eq_self_iff (hnodup : (done.map Prod.fst).Nodup)
    : par done g s = g s ↔ ∀ a ∈ done, Undisturbed g a (d, s) := by
  by_cases hs : s ∈ done.map Prod.fst
  · obtain ⟨⟨s', t⟩, hmem, rfl⟩ := mem_map.mp hs
    rw [par_of_mem hnodup hmem]
    constructor
    · intro heq a ha hread
      subst hread
      rw [← heq, ← par_of_mem hnodup (f := g) ha, ← par_of_mem hnodup (f := g) hmem]
    · intro h
      exact h _ hmem rfl
  · rw [par_of_notMem hs]
    refine iff_of_true rfl ?_
    intro a ha hread
    grind

theorem par_append_singleton (hd : d ∉ done.map Prod.fst)
    : par (done ++ [(d, s)]) g = Function.update (par done g) d (g s) := by
  funext k
  by_cases hk : k = d
  · subst hk
    simp [par, lookup_append, lookup_of_notMem hd]
  · simp [par, lookup_append, lookup_cons, beq_false_of_ne hk, Function.update_of_ne hk]

theorem seq_eq_iff_of_done : ∀ {moves done : List (κ × κ)} {f : κ → α}, f = par done g →
    ((done ++ moves).map Prod.fst).Nodup →
    ((∀ m ∈ moves, seq moves f m.1 = g m.2) ↔
      moves.Pairwise (Undisturbed g) ∧ ∀ a ∈ done, ∀ b ∈ moves, Undisturbed g a b)
  | [], done, f, _, _ => by simp
  | (d, s) :: moves, done, f, hf, hnodup => by
    have hsplit : ((done ++ [(d, s)]) ++ moves).map Prod.fst = (done ++ (d, s) :: moves).map Prod.fst := by
      simp
    obtain ⟨hdone, hrest, hdisj⟩ := nodup_append.mp (by simpa using hnodup)
    have hd : d ∉ done.map Prod.fst := fun h => hdisj _ h _ mem_cons_self rfl
    have hd' : d ∉ moves.map Prod.fst := (nodup_cons.mp hrest).1
    have hhead : seq ((d, s) :: moves) f d = f s := by
      rw [seq, seq_of_notMem hd', Function.update_self]
    have hread := par_eq_self_iff (g := g) (d := d) (s := s) hdone
    rw [← hf] at hread
    simp only [forall_mem_cons, hhead, hread, pairwise_cons]
    constructor
    · rintro ⟨hs, hmoves⟩
      have hupdate : Function.update f d (f s) = par (done ++ [(d, s)]) g := by
        rw [par_append_singleton hd, ← hf, hread.mpr hs]
      obtain ⟨hpair, hall⟩ := (seq_eq_iff_of_done hupdate (by rw [hsplit]; exact hnodup)).mp hmoves
      grind
    · rintro ⟨⟨hfirst, hpair⟩, hall⟩
      have hs : ∀ a ∈ done, Undisturbed g a (d, s) := fun a ha => (hall a ha).1
      have hupdate : Function.update f d (f s) = par (done ++ [(d, s)]) g := by
        rw [par_append_singleton hd, ← hf, hread.mpr hs]
      refine ⟨hs, ?_⟩
      refine (seq_eq_iff_of_done hupdate (by rw [hsplit]; exact hnodup)).mpr ⟨hpair, ?_⟩
      grind

/-- **Sequential assignment is parallel** exactly when no move is disturbed by an earlier one. -/
theorem seq_eq_par_iff (hnodup : (moves.map Prod.fst).Nodup) :
    (∀ m ∈ moves, seq moves f m.1 = f m.2) ↔ moves.Pairwise (Undisturbed f) := by
  have hnone : f = par [] f := rfl
  have h := seq_eq_iff_of_done hnone (by simpa using hnodup)
  simpa using h

end Assignment
