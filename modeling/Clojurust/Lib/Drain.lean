import Mathlib.Data.List.Basic
import Mathlib.Data.Nat.Init

/-!
# Draining a buffer by a cutting rule

A decoder of a stream keeps a control state and a buffer of what it has not used yet.  Each
time input arrives it is appended to the buffer, and then a rule cuts pieces off the front for
as long as it can, emitting output as it goes.

* `Rule` — the rule: in a control state, either nothing can be cut off the buffer, or some
  output is emitted, the state changes and a rest of the buffer is left;
* `Rule.Lawful` — a cut does not look beyond what it takes, and cutting comes to an end;
* `drained` — cutting until nothing can be cut, `drained_append` (draining a buffer and then
  draining what is left with more input is draining both at once);
* `feed`, `feedAll` — input in chunks, `feedAll_eq` (**how the input is cut into chunks does
  not matter**, neither for the output nor for the state that is left);
* `Implements` — a decoder that may fail to return drains by the rule, `Implements.run_eq`.
-/

namespace Drain

/-- What one cut does: output, new state, rest of the buffer; `none` when more input is needed.
`weight` is the number of cuts the state and the buffer can still give. -/
structure Rule (σ α β : Type) where
  cut : σ → List α → Option (List β × σ × List α)
  weight : σ → List α → Nat

variable {σ α β : Type}

/-- Cuts depend on the front of the buffer only, and every cut lowers the weight. -/
@[grind cases]
structure Rule.Lawful (r : Rule σ α β) : Prop where
  append : ∀ {s buf out s' rest}, r.cut s buf = some (out, s', rest) →
    ∀ more, r.cut s (buf ++ more) = some (out, s', rest ++ more)
  lowers : ∀ {s buf out s' rest}, r.cut s buf = some (out, s', rest) →
    r.weight s' rest < r.weight s buf

/-- At most `fuel` cuts. -/
def drain (r : Rule σ α β) : Nat → σ → List α → List β × σ × List α
  | 0, s, buf => ([], s, buf)
  | fuel + 1, s, buf =>
    match r.cut s buf with
    | none => ([], s, buf)
    | some (out, s', rest) =>
      let (outs, s'', left) := drain r fuel s' rest
      (out ++ outs, s'', left)

/-- Cutting until nothing can be cut. -/
def drained (r : Rule σ α β) (s : σ) (buf : List α) : List β × σ × List α :=
  drain r (r.weight s buf) s buf

/-- Input arrives: it is appended to the buffer, which is drained. -/
def feed (r : Rule σ α β) (st : σ × List α) (input : List α) : List β × σ × List α :=
  drained r st.1 (st.2 ++ input)

/-- Input arrives in chunks; all output in order, and the state left in the end. -/
def feedAll (r : Rule σ α β) : σ × List α → List (List α) → List β × σ × List α
  | st, [] => ([], st)
  | st, chunk :: chunks =>
    let (outs, st') := feed r st chunk
    let (more, st'') := feedAll r st' chunks
    (outs ++ more, st'')

/-- Nothing can be cut: the state a decoder is in between two chunks. -/
def Settled (r : Rule σ α β) (st : σ × List α) : Prop :=
  r.cut st.1 st.2 = none

section Draining

variable {r : Rule σ α β}

variable {s : σ} {buf : List α}

theorem drain_of_cut_none (h : r.cut s buf = none) : ∀ fuel, drain r fuel s buf = ([], s, buf)
  | 0 => rfl
  | fuel + 1 => by simp [drain, h]

theorem drain_of_cut_some {s' : σ} {rest : List α} {out : List β}
    (h : r.cut s buf = some (out, s', rest)) (fuel : Nat) :
    drain r (fuel + 1) s buf = (out ++ (drain r fuel s' rest).1, (drain r fuel s' rest).2) := by
  simp [drain, h]

theorem drained_of_cut_none (h : r.cut s buf = none) : drained r s buf = ([], s, buf) :=
  drain_of_cut_none h _

theorem feed_nil {st : σ × List α} (h : Settled r st) : feed r st [] = ([], st) := by
  rw [feed, List.append_nil]
  exact drained_of_cut_none h

variable (hr : r.Lawful)
include hr

theorem drain_succ : ∀ {fuel : Nat} {s : σ} {buf : List α},
    r.weight s buf ≤ fuel → drain r (fuel + 1) s buf = drain r fuel s buf := by
  intro fuel
  induction fuel with
  | zero =>
    intro s buf hf
    cases hcut : r.cut s buf with
    | none => rw [drain_of_cut_none hcut, drain_of_cut_none hcut]
    | some => grind
  | succ fuel ih =>
    intro s buf hf
    cases hcut : r.cut s buf with
    | none => rw [drain_of_cut_none hcut, drain_of_cut_none hcut]
    | some =>
      have hlow := hr.lowers hcut
      rw [drain_of_cut_some hcut, drain_of_cut_some hcut, ih (by omega)]

theorem drain_eq_drained {fuel : Nat}
    (hf : r.weight s buf ≤ fuel) : drain r fuel s buf = drained r s buf := by
  induction fuel, hf using Nat.le_induction with
  | base => rfl
  | succ fuel hf ih => rw [drain_succ hr hf, ih]

theorem drained_of_cut_some {s' : σ} {rest : List α} {out : List β}
    (h : r.cut s buf = some (out, s', rest)) :
    drained r s buf = (out ++ (drained r s' rest).1, (drained r s' rest).2) := by
  have hlow := hr.lowers h
  obtain ⟨n, hn⟩ : ∃ n, r.weight s buf = n + 1 := ⟨r.weight s buf - 1, by omega⟩
  rw [drained, hn, drain_of_cut_some h, drain_eq_drained hr (by omega)]

theorem cut_induction {motive : σ → List α → Prop}
    (stop : ∀ {s buf}, r.cut s buf = none → motive s buf)
    (step : ∀ {s buf out s' rest}, r.cut s buf = some (out, s', rest) → motive s' rest →
      motive s buf) (s : σ) (buf : List α) : motive s buf := by
  induction hw : r.weight s buf using Nat.strong_induction_on generalizing s buf with
  | _ =>
    cases hcut : r.cut s buf with
    | none => exact stop hcut
    | some => grind

theorem settled_drained (s : σ) (buf : List α) : Settled r (drained r s buf).2 := by
  refine cut_induction hr (motive := fun s buf => Settled r (drained r s buf).2) ?_ ?_ s buf
  · intro s buf hcut
    rw [drained_of_cut_none hcut]
    exact hcut
  · intro s buf out s' rest hcut ih
    rw [drained_of_cut_some hr hcut]
    exact ih

theorem drained_invariant {P : σ → List α → Prop}
    (hP : ∀ {s buf out s' rest}, r.cut s buf = some (out, s', rest) → P s buf → P s' rest)
    (s : σ) (buf : List α) : P s buf → P (drained r s buf).2.1 (drained r s buf).2.2 := by
  refine cut_induction hr
    (motive := fun s buf => P s buf → P (drained r s buf).2.1 (drained r s buf).2.2) ?_ ?_ s buf
  · intro s buf hcut h
    rw [drained_of_cut_none hcut]
    exact h
  · intro s buf out s' rest hcut ih h
    rw [drained_of_cut_some hr hcut]
    exact ih (hP hcut h)

/-- **Draining what came first and then the rest with more input is draining both at once.** -/
theorem drained_append (more : List α) (s : σ) (buf : List α) :
    drained r s (buf ++ more) = ((drained r s buf).1 ++ (feed r (drained r s buf).2 more).1,
        (feed r (drained r s buf).2 more).2) := by
  refine cut_induction hr (motive := fun s buf => drained r s (buf ++ more) =
    ((drained r s buf).1 ++ (feed r (drained r s buf).2 more).1,
      (feed r (drained r s buf).2 more).2)) ?_ ?_ s buf
  · intro s buf hcut
    rw [drained_of_cut_none hcut]
    rfl
  · intro s buf out s' rest hcut ih
    rw [drained_of_cut_some hr hcut, drained_of_cut_some hr (hr.append hcut more), ih]
    simp only [List.append_assoc]

/-- **Chunks do not matter.**  Fed in any chunks, the input gives the output and leaves the
state it gives and leaves when fed at once. -/
theorem feedAll_eq : ∀ {st : σ × List α}, Settled r st →
    ∀ chunks : List (List α), feedAll r st chunks = feed r st chunks.flatten
  | st, h, [] => (feed_nil h).symm
  | st, _, chunk :: chunks => by
    have ih := feedAll_eq (settled_drained hr st.1 (st.2 ++ chunk)) chunks
    rw [List.flatten_cons, feed, ← List.append_assoc, drained_append hr]
    exact congrArg (fun res : List β × σ × List α => ((feed r st chunk).1 ++ res.1, res.2)) ih

end Draining

/-! ## Decoders -/

section Decoders

variable {τ : Type}

/-- A decoder with states of its own is given chunk after chunk; `none` when it does not return
from one of them. -/
def run (decode : τ → List α → Option (List β × τ)) : τ → List (List α) → Option (List β × τ)
  | t, [] => some ([], t)
  | t, chunk :: chunks => do
    let (outs, t') ← decode t chunk
    let (more, t'') ← run decode t' chunks
    return (outs ++ more, t'')

/-- Between two chunks the decoder stands for a settled state of the rule, and a chunk takes it
where draining takes that state. -/
def Implements (decode : τ → List α → Option (List β × τ)) (r : Rule σ α β)
    (standFor : σ × List α → τ) : Prop :=
  ∀ st, Settled r st → ∀ chunk,
    decode (standFor st) chunk = some ((feed r st chunk).1, standFor (feed r st chunk).2)

variable {decode : τ → List α → Option (List β × τ)} {r : Rule σ α β} {standFor : σ × List α → τ}

theorem Implements.run_eq_feedAll (h : Implements decode r standFor) (hr : r.Lawful) :
    ∀ {st : σ × List α}, Settled r st → ∀ chunks : List (List α), run decode (standFor st) chunks =
        some ((feedAll r st chunks).1, standFor (feedAll r st chunks).2)
  | _, _, [] => rfl
  | st, hst, chunk :: chunks => by
    have ih := run_eq_feedAll h hr (settled_drained hr st.1 (st.2 ++ chunk)) chunks
    have hnext : drained r st.1 (st.2 ++ chunk) = feed r st chunk := rfl
    rw [hnext] at ih
    simp only [run, h st hst chunk, Option.bind_eq_bind, Option.bind_some, ih, feedAll]
    rfl

/-- **A decoder that drains by a lawful rule returns from every sequence of chunks what it
returns from the whole input.** -/
theorem Implements.run_eq (h : Implements decode r standFor) (hr : r.Lawful)
    {st : σ × List α} (hst : Settled r st) (chunks : List (List α)) :
    run decode (standFor st) chunks = decode (standFor st) chunks.flatten := by
  rw [h.run_eq_feedAll hr hst, feedAll_eq hr hst, h st hst]

end Decoders

end Drain
