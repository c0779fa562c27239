import Mathlib.Logic.Basic

/-!
# Stateful computations whose errors keep the state

`EStateM ε σ α` is a computation that returns a value or raises an error, and in both cases
hands over the state it reached.  `wp x Q E s` says that `x`, started in `s`, either returns
with `Q` or fails with `E`:

* `wp_pure`, `wp_get`, `wp_bind`, `wp_tryCatch` — one rule per construct;
* `wp_mono` — consequence; `wp_final` — what holds of the state in either case;
* `run_bind`, `run_bind_error` — a computation whose first part is known;
* `wp_seq` — a proved specification of the first part is all the second part needs;
* `Keeps R x` — `x` moves every state along `R`, whether it returns or fails, with one rule per
  construct.
-/

namespace StateExcept

variable {ε σ α β : Type}

/-- The weakest precondition of `x` for a result `Q` and an error `E`. -/
def wp (x : EStateM ε σ α) (Q : α → σ → Prop) (E : ε → σ → Prop) (s : σ) : Prop :=
  match x s with
  | .ok a s' => Q a s'
  | .error e s' => E e s'

section Rules

variable {x : EStateM ε σ α} {f : α → EStateM ε σ β} {s s' : σ}
  {Q Q' : α → σ → Prop} {E E' : ε → σ → Prop}

theorem wp_ok (h : wp x Q E s) {a : α} (hx : x s = .ok a s') : Q a s' := by
  unfold wp at h
  rwa [hx] at h

theorem wp_error (h : wp x Q E s) {e : ε} (hx : x s = .error e s') : E e s' := by
  unfold wp at h
  rwa [hx] at h

theorem wp_of (hok : ∀ a s', x s = .ok a s' → Q a s') (herr : ∀ e s', x s = .error e s' → E e s') :
    wp x Q E s := by
  unfold wp
  grind

theorem wp_returns (h : wp x Q (fun _ _ => False) s) : ∃ a s', x s = .ok a s' ∧ Q a s' := by
  cases hx : x s with
  | ok a s' => exact ⟨a, s', rfl, wp_ok h hx⟩
  | error => exact (wp_error h hx).elim

theorem run_bind {a : α} (h : x s = .ok a s') : (x >>= f) s = f a s' := by
  simp only [bind, EStateM.bind, h]

theorem run_bind_error {e : ε} (h : x s = .error e s') : (x >>= f) s = .error e s' := by
  simp only [bind, EStateM.bind, h]

theorem run_get : (get : EStateM ε σ σ) s = .ok s s := rfl

@[simp] theorem wp_pure (a : α) : wp (pure a) Q E s ↔ Q a s := Iff.rfl

@[simp] theorem wp_get {Q : σ → σ → Prop} : wp get Q E s ↔ Q s s := Iff.rfl

variable {R : β → σ → Prop}

theorem wp_bind : wp (x >>= f) R E s ↔ wp x (fun a => wp (f a) R E) E s := by
  simp only [wp, bind, EStateM.bind]
  cases x s <;> rfl

theorem wp_tryCatch {handle : ε → EStateM ε σ α} :
    wp (tryCatch x handle) Q E s ↔ wp x Q (fun e => wp (handle e) Q E) s := by
  show wp (EStateM.tryCatch x handle) Q E s ↔ _
  delta wp EStateM.tryCatch
  dsimp only
  cases x s <;> rfl

/-- The state that `x` hands over, by return or by error. -/
def final (x : EStateM ε σ α) (s : σ) : σ :=
  match x s with
  | .ok _ s' | .error _ s' => s'

variable (h : wp x Q E s)

include h

theorem wp_weaken (hQ : ∀ a s', Q a s' → Q' a s') (hE : ∀ e s', E e s' → E' e s') : wp x Q' E' s :=
  wp_of (fun _ _ hx => hQ _ _ (wp_ok h hx)) (fun _ _ hx => hE _ _ (wp_error h hx))

theorem wp_mono (hQ : ∀ a s', Q a s' → Q' a s') : wp x Q' E s :=
  wp_weaken h hQ fun _ _ h => h

/-- Anything is allowed of the errors. -/
theorem wp_mono_any (hQ : ∀ a s', Q a s' → Q' a s') : wp x Q' (fun _ _ => True) s :=
  wp_weaken h hQ fun _ _ _ => trivial

theorem wp_and (h' : wp x Q' E' s) :
    wp x (fun a s' => Q a s' ∧ Q' a s') (fun e s' => E e s' ∧ E' e s') s :=
  wp_of (fun _ _ hx => ⟨wp_ok h hx, wp_ok h' hx⟩) fun _ _ hx => ⟨wp_error h hx, wp_error h' hx⟩

theorem wp_final {P : σ → Prop} (hQ : ∀ a s', Q a s' → P s') (hE : ∀ e s', E e s' → P s') :
    P (final x s) := by
  unfold final
  split
  · exact hQ _ _ (wp_ok h ‹_›)
  · exact hE _ _ (wp_error h ‹_›)

/-- **Sequencing**: the second part starts from what the first part's specification says. -/
theorem wp_seq_weaken (hf : ∀ a s', Q a s' → wp (f a) R E' s') (hE : ∀ e s', E e s' → E' e s') :
    wp (x >>= f) R E' s :=
  wp_bind.mpr (wp_weaken h hf hE)

theorem wp_seq (hf : ∀ a s', Q a s' → wp (f a) R E s') : wp (x >>= f) R E s :=
  wp_seq_weaken h hf fun _ _ h => h

theorem wp_seq_any (hf : ∀ a s', Q a s' → wp (f a) R (fun _ _ => True) s') :
    wp (x >>= f) R (fun _ _ => True) s :=
  wp_seq_weaken h hf fun _ _ _ => trivial

end Rules

/-! ## Relations kept by a computation -/

/-- `x` relates every state to the one it ends in, by return or by error. -/
def Keeps (R : σ → σ → Prop) (x : EStateM ε σ α) : Prop := ∀ s, wp x (fun _ => R s) (fun _ => R s) s

section Keeps

variable {R R' : σ → σ → Prop} {x : EStateM ε σ α} {f : α → EStateM ε σ β}

theorem keeps_pure (hr : ∀ s, R s s) (a : α) : Keeps R (pure a : EStateM ε σ α) := fun s => hr s

theorem keeps_throw (hr : ∀ s, R s s) (e : ε) : Keeps R (throw e : EStateM ε σ α) := fun s => hr s

theorem keeps_get (hr : ∀ s, R s s) : Keeps R (get : EStateM ε σ σ) := fun s => hr s

theorem Keeps.bind (ht : ∀ {a b c}, R a b → R b c → R a c) (hx : Keeps R x)
    (hf : ∀ a, Keeps R (f a)) : Keeps R (x >>= f) := by
  intro s
  refine wp_seq (hx s) ?_
  intro a s' hs
  exact wp_weaken (hf a s') (fun _ _ h => ht hs h) (fun _ _ h => ht hs h)

theorem Keeps.mono (hx : Keeps R x) (h : ∀ s s', R s s' → R' s s') : Keeps R' x :=
  fun s => wp_weaken (hx s) (fun _ _ => h s _) (fun _ _ => h s _)

end Keeps

end StateExcept
