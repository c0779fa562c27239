import Mathlib.Data.List.Basic
import Mathlib.Algebra.GroupWithZero.Nat

/-!
# Interleaved calls on a shared state

Calls run side by side on a shared state, each with a state of its own. An event starts a call or
lets one take a step, and the events of all calls interleave in any order.

* `Machine.step`, `Machine.run` — one event, and a sequence of them;
* `Machine.run_invariant` — what every event keeps holds after every run;
* `Machine.Meets` — every event of a run meets a condition on the state before it;
* `Machine.run_iff_meets` — a property that an event keeps exactly when it meets a condition;
* `Machine.meets_of_invariant` — a condition that an invariant implies;
* `Each`, `Each.step` — a property of every call, kept by an event;
* `Justified` — a history where every entry is justified by the entries before it.
-/

namespace Interleaving

/-- Calls of kinds `ο` on a shared state `σ`: where a call starts, and what a labelled step does to
the shared state and to the call, if it can be taken. -/
structure Machine (ο σ τ ℓ : Type) where
  start : ο → τ
  next : Nat → ℓ → σ → τ → Option (σ × τ)

/-- The shared state, and the calls in the order in which they were started. -/
structure State (σ τ : Type) where
  shared : σ
  calls : List τ

inductive Event (ο ℓ : Type) where
  | call (op : ο)
  | step (i : Nat) (label : ℓ)

variable {ο σ τ ℓ : Type}

namespace Machine

variable (m : Machine ο σ τ ℓ)

def step (s : State σ τ) : Event ο ℓ → Option (State σ τ)
  | .call op => some ⟨s.shared, s.calls ++ [m.start op]⟩
  | .step i label =>
    match s.calls[i]? with
    | none => none
    | some c =>
      match m.next i label s.shared c with
      | none => none
      | some (shared, c) => some ⟨shared, s.calls.set i c⟩

/-- The state after a sequence of events, if each of them can be taken. -/
def run : State σ τ → List (Event ο ℓ) → Option (State σ τ)
  | s, [] => some s
  | s, e :: es =>
    match m.step s e with
    | none => none
    | some s => run s es

/-- Every event of a run meets a condition on the state before it. -/
def Meets (guard : State σ τ → Event ο ℓ → Prop) : State σ τ → List (Event ο ℓ) → Prop
  | _, [] => True
  | s, e :: es => guard s e ∧ ∀ s', m.step s e = some s' → Meets guard s' es

variable {m}

variable {s s' : State σ τ} {e : Event ο ℓ} {es : List (Event ο ℓ)} {I : State σ τ → Prop}
  {guard : State σ τ → Event ο ℓ → Prop} {G : State σ τ → Prop}

theorem step_cases (h : m.step s e = some s') :
    (∃ op, e = .call op ∧ s' = ⟨s.shared, s.calls ++ [m.start op]⟩) ∨
      ∃ i label c shared c', e = .step i label ∧ s.calls[i]? = some c ∧
        m.next i label s.shared c = some (shared, c') ∧ s' = ⟨shared, s.calls.set i c'⟩ := by
  cases e with
  | call op => exact .inl ⟨op, rfl, (Option.some.inj h).symm⟩
  | step =>
    simp only [step] at h
    grind

theorem run_cons
    (h : m.run s (e :: es) = some s') : ∃ s1, m.step s e = some s1 ∧ m.run s1 es = some s' := by
  simp only [run] at h
  grind

theorem run_append {es2 : List (Event ο ℓ)} :
    ∀ {es1 : List (Event ο ℓ)} {s s1 : State σ τ}, m.run s (es1 ++ es2) = some s' →
      m.run s es1 = some s1 → m.run s1 es2 = some s'
  | [], _, _, h, h1 => by cases h1; exact h
  | _ :: _, _, _, h, h1 => by
    obtain ⟨s2, hs2, hrest⟩ := run_cons h
    obtain ⟨s3, hs3, hrest1⟩ := run_cons h1
    cases hs2.symm.trans hs3
    exact run_append hrest hrest1

theorem run_step_cons {i : Nat} {label : ℓ} {c c' : τ} {shared : σ} (hi : s.calls[i]? = some c)
    (hnext : m.next i label s.shared c = some (shared, c')) :
    m.run s (.step i label :: es) = m.run ⟨shared, s.calls.set i c'⟩ es := by
  simp only [run, step, hi, hnext]

theorem run_iff_meets_of_meets {allowed : State σ τ → Event ο ℓ → Prop}
    (hstep : ∀ s e s', I s → allowed s e → m.step s e = some s' → I s' ∧ (G s' ↔ G s ∧ guard s e)) :
    ∀ {es : List (Event ο ℓ)} {s s' : State σ τ}, I s → m.Meets allowed s es → m.run s es = some s' →
      I s' ∧ (G s' ↔ G s ∧ m.Meets guard s es)
  | [], _, _, hs, _, hrun => by
    cases hrun
    exact ⟨hs, fun h => ⟨h, trivial⟩, fun h => h.1⟩
  | e :: es, s, s', hs, hallowed, hrun => by
    obtain ⟨s1, hs1, hrest⟩ := run_cons hrun
    obtain ⟨hI1, hiff1⟩ := hstep s e s1 hs hallowed.1 hs1
    obtain ⟨hI, hiff⟩ := run_iff_meets_of_meets hstep hI1 (hallowed.2 s1 hs1) hrest
    refine ⟨hI, hiff.trans ⟨?_, ?_⟩⟩
    · rintro ⟨hG, hmeets⟩
      obtain ⟨hG, hguard⟩ := hiff1.mp hG
      refine ⟨hG, hguard, ?_⟩
      grind
    · rintro ⟨hG, hguard, hmeets⟩
      grind

theorem meets_cons_none (h : m.step s e = none) : m.Meets guard s (e :: es) ↔ guard s e := by
  refine ⟨fun hmeets => hmeets.1, fun hguard => ⟨hguard, fun s' hs' => ?_⟩⟩
  cases h.symm.trans hs'

theorem meets_cons_some {s1 : State σ τ} (h : m.step s e = some s1) :
    m.Meets guard s (e :: es) ↔ guard s e ∧ m.Meets guard s1 es := by
  refine ⟨fun hmeets => ⟨hmeets.1, hmeets.2 s1 h⟩, fun hmeets => ⟨hmeets.1, fun s' hs' => ?_⟩⟩
  grind

/-- Whether a given run meets a condition can be computed. -/
instance decidableMeets {guard : State σ τ → Event ο ℓ → Prop} [∀ s e, Decidable (guard s e)] :
    ∀ (es : List (Event ο ℓ)) (s : State σ τ), Decidable (m.Meets guard s es)
  | [], _ => isTrue trivial
  | e :: es, s =>
    match h : m.step s e with
    | none => decidable_of_iff _ (meets_cons_none h).symm
    | some s1 =>
      have : Decidable (m.Meets guard s1 es) := decidableMeets es s1
      decidable_of_iff _ (meets_cons_some h).symm

theorem meets_true : ∀ (es : List (Event ο ℓ)) (s : State σ τ), m.Meets (fun _ _ => True) s es
  | [], _ => trivial
  | _ :: es, _ => ⟨trivial, fun s' _ => meets_true es s'⟩

theorem run_iff_meets
    (hstep : ∀ s e s', I s → m.step s e = some s' → I s' ∧ (G s' ↔ G s ∧ guard s e))
    (hs : I s) (hrun : m.run s es = some s') :
    I s' ∧ (G s' ↔ G s ∧ m.Meets guard s es) :=
  run_iff_meets_of_meets (fun s e s' hs _ h => hstep s e s' hs h) hs (meets_true es s) hrun

theorem run_invariant_of_meets (hstep : ∀ s e s', I s → guard s e → m.step s e = some s' → I s')
    (hs : I s) (hmeets : m.Meets guard s es) (hrun : m.run s es = some s') : I s' := by
  have hiff : ∀ s e s', I s → guard s e → m.step s e = some s' → I s' ∧ (True ↔ True ∧ guard s e) :=
    fun s e s' hs hguard h => ⟨hstep s e s' hs hguard h, iff_of_true trivial ⟨trivial, hguard⟩⟩
  exact (run_iff_meets_of_meets (G := fun _ => True) hiff hs hmeets hrun).1

theorem run_invariant (hstep : ∀ s e s', I s → m.step s e = some s' → I s')
    (hs : I s) (hrun : m.run s es = some s') : I s' :=
  run_invariant_of_meets (fun s e s' hs _ h => hstep s e s' hs h) hs (meets_true es s) hrun

theorem meets_of_invariant {allowed : Event ο ℓ → Prop} (hguard : ∀ s e, I s → guard s e)
    (hstep : ∀ s e s', I s → allowed e → m.step s e = some s' → I s') :
    ∀ {es : List (Event ο ℓ)} {s : State σ τ}, I s → (∀ e ∈ es, allowed e) → m.Meets guard s es
  | [], _, _, _ => trivial
  | e :: es, s, hs, hallowed => by
    refine ⟨hguard s e hs, fun s' hs' => ?_⟩
    rw [List.forall_mem_cons] at hallowed
    exact meets_of_invariant hguard hstep (hstep s e s' hs hallowed.1 hs') hallowed.2

theorem meets_congr {guard' : State σ τ → Event ο ℓ → Prop} (h : ∀ s e, guard s e ↔ guard' s e) :
    ∀ (es : List (Event ο ℓ)) (s : State σ τ), m.Meets guard s es ↔ m.Meets guard' s es
  | [], _ => Iff.rfl
  | e :: es, s => by
    refine and_congr (h s e) ?_
    exact forall_congr' fun s' => imp_congr_right fun _ => meets_congr h es s'

end Machine

/-! ## The list of calls -/

variable {calls : List τ} {i : Nat} {c c' : τ}

theorem getElem?_set_cases {k : Nat}
    (h : (calls.set i c)[k]? = some c') : (k = i ∧ c' = c) ∨ (k ≠ i ∧ calls[k]? = some c') := by
  grind

theorem getElem?_set_of_some (h : calls[i]? = some c) : (calls.set i c')[i]? = some c' :=
  List.getElem?_set_self (List.getElem?_eq_some_iff.mp h).1

theorem getElem?_append_cases {k : Nat}
    (h : (calls ++ [c])[k]? = some c') : (k = calls.length ∧ c' = c) ∨ calls[k]? = some c' := by
  grind

instance decidableAt {P : τ → Prop} [DecidablePred P] (calls : List τ) (i : Nat) :
    Decidable (∀ c, calls[i]? = some c → P c) :=
  match calls[i]? with
  | none => isTrue nofun
  | some c => decidable_of_iff (P c) ⟨fun hc _ hd => Option.some.inj hd ▸ hc, fun hall => hall c rfl⟩

theorem forall_at_iff {P : τ → Prop} (h : calls[i]? = some c) :
    (∀ d, calls[i]? = some d → P d) ↔ P c := by
  simp [h]

theorem sum_map_set (c' : τ) (f : τ → Nat) (h : calls[i]? = some c) :
    ((calls.set i c').map f).sum + f c = (calls.map f).sum + f c' := by
  induction calls generalizing i with
  | nil => cases h
  | cons =>
    cases i with
    | zero | succ i => grind

/-! ## Properties of every call -/

/-- Every call has a property, which may mention its number and the shared state. -/
def Each (P : Nat → σ → τ → Prop) (s : State σ τ) : Prop :=
  ∀ k c, s.calls[k]? = some c → P k s.shared c

theorem Each.step {m : Machine ο σ τ ℓ} {P : Nat → σ → τ → Prop} {s s' : State σ τ}
    {e : Event ο ℓ} (h : Each P s) (hstep : m.step s e = some s')
    (hstart : ∀ op, e = .call op → P s.calls.length s.shared (m.start op))
    (hown : ∀ {i label c shared c'}, s.calls[i]? = some c →
      m.next i label s.shared c = some (shared, c') → P i s.shared c → P i shared c')
    (hother : ∀ {i label c shared c' k d}, s.calls[i]? = some c →
      m.next i label s.shared c = some (shared, c') → k ≠ i → s.calls[k]? = some d →
      P k s.shared d → P k shared d) : Each P s' := by
  obtain ⟨op, rfl, rfl⟩ | ⟨i, label, c, shared, c', rfl, hi, hnext, rfl⟩ := Machine.step_cases hstep
  · intro k d hk
    rcases getElem?_append_cases hk with ⟨rfl, rfl⟩ | hk
    · exact hstart op rfl
    · exact h k d hk
  · intro k d hk
    rcases getElem?_set_cases hk with ⟨rfl, rfl⟩ | ⟨hne, hk⟩
    · exact hown hi hnext (h _ _ hi)
    · exact hother hi hnext hne hk (h k d hk)

/-! ## Histories -/

section Histories

variable {α : Type}

/-- Every entry is justified by the entries before it; the newest entry stands first. -/
def Justified (P : List α → α → Prop) : List α → Prop
  | [] => True
  | x :: before => P before x ∧ Justified P before

end Histories

end Interleaving
