import Mathlib.Order.Basic

/-!
# Open recursion along a measure

A recursive function is given by its body, which calls itself through a parameter. When the body
only looks at smaller arguments, enough unfoldings make a fixed point of it.

* `Decreasing` — the body only calls itself on smaller arguments;
* `fix` — the function, by as many unfoldings as the argument is large;
* `fix_eq` — it satisfies its recursion equation.
-/

namespace OpenRecursion

variable {α β : Type*} (size : α → Nat) (body : (α → β) → α → β) (bottom : β)

/-- Calls on smaller arguments are all the body depends on. -/
def Decreasing : Prop :=
  ∀ (f g : α → β) (a : α), (∀ x, size x < size a → f x = g x) → body f a = body g a

/-- The body, unfolded a number of times. -/
def unfolded : Nat → α → β
  | 0, _ => bottom
  | n + 1, a => body (unfolded n) a

/-- The function with the body. -/
def fix (a : α) : β := unfolded body bottom (size a + 1) a

variable {size body bottom}

theorem unfolded_eq (h : Decreasing size body) : ∀ {n m : Nat} {a : α}, size a < n → size a < m →
    unfolded body bottom n a = unfolded body bottom m a
  | n + 1, m + 1, a, hn, hm => by
    refine h _ _ a ?_
    intro x hx
    exact unfolded_eq h (by omega) (by omega)

theorem fix_eq (h : Decreasing size body) (a : α) :
    fix size body bottom a = body (fix size body bottom) a := by
  refine h _ _ a ?_
  intro x hx
  exact unfolded_eq h hx (Nat.lt_succ_self _)

end OpenRecursion
