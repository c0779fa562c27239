import Clojurust.Gas.Basic
import Mathlib.Data.List.Nodup

/-!
# Exact gas budgets

What holds of the meters and checkpoints of `Clojurust.Gas.Basic` after every interleaving.

* `Sound` — what every thread keeps: guards have numbers of their own, a scope that a checkpoint left
  exhausted stays so, and a scope is exhausted only if its meter could not cover a failed checkpoint;
* `Recorded` — what the finished checkpoints have in common: failures are sticky and leave an
  exhausted scope behind, successes charge the whole stack;
* `run_conserved` — no credit is lost or charged twice over;
* `Funded`, `run_funded` — a checkpoint that has read its meters can pay, as long as no meter is
  twice in its stack and checkpoints that share meters do not overlap (`Orderly`);
* `checkpoint_succeeds` — a thread with enough credits is held back only by a scope of its stack that
  a failed checkpoint left exhausted;
* `gas_budgets_exact` — all of this for every run.
-/

namespace Clojurust.Gas

open Interleaving List Machine

/-! ## Scopes -/

@[simp] theorem mark_id (shared : Shared) (cost : Nat) (scope : Scope) :
    (mark shared cost scope).id = scope.id := by
  unfold mark
  split <;> rfl

@[simp] theorem mark_meter (shared : Shared) (cost : Nat) (scope : Scope) :
    (mark shared cost scope).meter = scope.meter := by
  unfold mark
  split <;> rfl

variable {shared : Shared} {cost : Nat} {scope : Scope} {scopes : List Scope} {i k : Nat}
  {shared' : Shared} {thread thread' : Thread} {c : Checkpoint} {credits : Nat → Nat}
  {events : List (Event Unit Label)} {s : State Shared Thread}

theorem mark_exhausted (h : (mark shared cost scope).exhausted = true) :
    scope.exhausted = true ∨ shared.remaining scope.meter < cost := by
  unfold mark at h
  grind

theorem mark_keeps (h : scope.exhausted = true) : (mark shared cost scope).exhausted = true := by
  unfold mark
  grind

theorem map_set_mark {α : Type} (f : Scope → α) {index : Nat}
    {scope' : Scope} (hscope : scopes[index]? = some scope) (hf : f scope' = f scope) :
    (scopes.set index scope').map f = scopes.map f := by
  refine ext_getElem? ?_
  grind

/-! ## Threads -/

/-- A checkpoint of the thread failed, left the scope exhausted and cost more than its meter has. -/
def Charged (k : Nat) (shared : Shared) (scope : Scope) : Prop :=
  ∃ c ∈ shared.history, c.thread = k ∧ c.ok = false ∧
    (∃ sc ∈ c.scopes, sc.id = scope.id ∧ sc.exhausted = true) ∧ shared.remaining scope.meter < c.cost

/-- Why a scope is exhausted: a failed checkpoint, or the one that is failing, cost more than its
meter has. -/
def Blamed (k : Nat) (shared : Shared) (phase : Phase) (scope : Scope) : Prop :=
  Charged k shared scope ∨
  ∃ cost taken index, phase = .marking cost taken index ∧ shared.remaining scope.meter < cost

@[grind cases]
structure Sound (k : Nat) (shared : Shared) (thread : Thread) : Prop where
  fresh : ∀ scope ∈ thread.scopes, scope.id < shared.guards
  nodup : (thread.scopes.map Scope.id).Nodup
  /-- A scope left exhausted by a finished checkpoint is exhausted, and no checkpoint starts. -/
  marked : ∀ c ∈ shared.history, c.thread = k → ∀ scope ∈ c.scopes, scope.exhausted = true →
    ∀ sc ∈ thread.scopes, sc.id = scope.id → sc.exhausted = true ∧ thread.phase = .idle
  blamed : ∀ scope ∈ thread.scopes, scope.exhausted = true →
    Blamed k shared thread.phase scope
  /-- A failing checkpoint has marked a scope that is short, or still will. -/
  short : ∀ cost taken index, thread.phase = .marking cost taken index →
    ∃ (j : Nat) (scope : Scope), thread.scopes[j]? = some scope ∧
      shared.remaining scope.meter < cost ∧ (index ≤ j ∨ scope.exhausted = true)
  charged : ∀ cost index, thread.phase = .charging cost index → index ≤ thread.scopes.length

theorem Charged.later (h : Charged k shared scope) (hlater : Later i shared shared') :
    Charged k shared' scope := by
  obtain ⟨c, hc, hk, hok, hsc, hless⟩ := h
  exact ⟨c, by grind, hk, hok, hsc, Nat.lt_of_le_of_lt (hlater.remaining _) hless⟩

theorem Blamed.later {phase : Phase}
    (h : Blamed k shared phase scope) (hlater : Later i shared shared') :
    Blamed k shared' phase scope := by
  rcases h with h | ⟨cost, taken, index, hphase, hless⟩
  · exact .inl (h.later hlater)
  · exact .inr ⟨cost, taken, index, hphase, Nat.lt_of_le_of_lt (hlater.remaining _) hless⟩

theorem Blamed.finished {phase phase' : Phase}
    (h : Blamed k shared phase scope) (hphase : ∀ cost taken index, phase ≠ .marking cost taken index) :
    Blamed k shared phase' scope := by
  rcases h with h | ⟨cost, taken, index, heq, -⟩
  · exact .inl h
  · exact absurd heq (hphase cost taken index)

theorem Sound.later (h : Sound k shared thread) (hlater : Later i shared shared') (hne : k ≠ i) :
    Sound k shared' thread where
  fresh scope hscope := Nat.lt_of_lt_of_le (h.fresh scope hscope) hlater.guards
  nodup := h.nodup
  marked c hc hk := h.marked c (by grind) hk
  blamed scope hscope hexhausted := (h.blamed scope hscope hexhausted).later hlater
  short cost taken index hphase := by grind
  charged := h.charged

theorem Next.origin (h : Next i shared thread shared' thread') (hscope : scope ∈ thread'.scopes) :
    (scope.id = shared.guards ∧ shared'.guards = shared.guards + 1 ∧ scope.exhausted = false) ∨
      ∃ sc ∈ thread.scopes, sc.id = scope.id ∧ (sc.exhausted = true → scope.exhausted = true) := by
  cases h with
  | install => grind
  | uninstall scopes => exact .inr ⟨scope, (dropLast_sublist scopes).subset hscope, rfl, id⟩
  | mark scopes cost taken index sc hsc =>
    rcases mem_or_eq_of_mem_set hscope with hold | rfl
    · exact .inr ⟨scope, hold, rfl, id⟩
    · exact .inr ⟨sc, mem_of_getElem? hsc, (mark_id _ _ _).symm, mark_keeps⟩
  | _ => exact .inr ⟨scope, hscope, rfl, id⟩

/-! ### A step of the thread itself -/

section Own

variable {i : Nat} {shared shared' : Shared} {thread thread' : Thread}
  (h : Next i shared thread shared' thread')

include h

theorem Next.recorded (hc : c ∈ shared'.history) : c ∈ shared.history ∨
      (c.scopes = thread.scopes ∧ thread'.scopes = thread.scopes ∧ thread'.phase = .idle) := by
  cases h with
  | refuse | unmetered | paid | marked =>
    rcases mem_cons.mp hc with rfl | hc
    all_goals grind
  | _ => exact .inl hc

theorem Next.idle_or_clear (hidle : thread.phase = .idle) :
    thread'.phase = .idle ∨ ∀ scope ∈ thread'.scopes, scope.exhausted = false := by
  cases h with
  | start scopes cost h => exact .inr (by simpa [isExhausted] using h)
  | install | uninstall | refuse | unmetered => exact .inl rfl
  | _ => cases hidle

variable (hs : Sound i shared thread)

include hs

theorem Next.nodup : (thread'.scopes.map Scope.id).Nodup := by
  have hnodup := hs.nodup
  cases h with
  | install => grind
  | uninstall scopes => exact hnodup.sublist ((dropLast_sublist scopes).map Scope.id)
  | mark scopes cost taken index sc hsc =>
    rw [map_set_mark Scope.id hsc (mark_id shared cost sc)]
    exact hnodup
  | _ => exact hnodup

theorem Next.fresh : ∀ scope ∈ thread'.scopes, scope.id < shared'.guards := by
  intro scope hscope
  rcases h.origin hscope with ⟨hid, hguards, -⟩ | ⟨sc, hsc, hid, -⟩
  · omega
  · rw [← hid]
    exact Nat.lt_of_lt_of_le (hs.fresh sc hsc) h.later.guards

theorem Next.keeps_marked (holder : ∀ c ∈ shared.history, ∀ scope ∈ c.scopes, scope.id < shared.guards) :
    ∀ c ∈ shared'.history, c.thread = i → ∀ scope ∈ c.scopes, scope.exhausted = true →
      ∀ sc ∈ thread'.scopes, sc.id = scope.id → sc.exhausted = true ∧ thread'.phase = .idle := by
  intro c hc hi scope hscope hexhausted sc hsc hid
  rcases h.recorded hc with hold | ⟨hscopes, hscopes', hidle⟩
  · rcases h.origin hsc with ⟨hnew, -, -⟩ | ⟨sc0, hsc0, hid0, hkeep⟩
    · -- a new guard has a number of its own
      grind
    · obtain ⟨hex0, hidle⟩ := hs.marked c hold hi scope hscope hexhausted sc0 hsc0 (hid0.trans hid)
      refine ⟨hkeep hex0, ?_⟩
      rcases h.idle_or_clear hidle with hidle' | hclear
      · exact hidle'
      · grind
  · rw [hscopes'] at hsc
    rw [hscopes] at hscope
    rw [inj_on_of_nodup_map hs.nodup hsc hscope hid]
    exact ⟨hexhausted, hidle⟩

theorem Next.keeps_blamed :
    ∀ scope ∈ thread'.scopes, scope.exhausted = true → Blamed i shared' thread'.phase scope := by
  intro scope hscope hexhausted
  have hlater := h.later
  have hblamed := hs.blamed
  cases h with
  | install =>
    rcases mem_append.mp hscope with hold | hnew
    · exact (hblamed scope hold hexhausted).later hlater
    · grind
  | uninstall scopes => exact hblamed scope ((dropLast_sublist scopes).subset hscope) hexhausted
  | refuse => exact (hblamed scope hscope hexhausted).later hlater
  | unmetered => cases hscope
  | start | enough | short | checked | lost =>
    exact (hblamed scope hscope hexhausted).finished (by simp)
  | pay | paid => exact ((hblamed scope hscope hexhausted).later hlater).finished (by simp)
  | mark scopes cost taken index sc hsc =>
    have hnow : shared.remaining scope.meter < cost →
        Blamed i shared (.marking cost taken (index + 1)) scope :=
      fun hless => .inr ⟨cost, taken, index + 1, rfl, hless⟩
    have hold : ∀ sc ∈ scopes, sc.exhausted = true → sc.id = scope.id → sc.meter = scope.meter →
        Blamed i shared (.marking cost taken (index + 1)) scope := by
      intro sc hsc hex hid hmeter
      rcases hblamed sc hsc hex with ⟨c, hc, hi, hok, hsc', hless⟩ | ⟨cost', taken', index', heq, hless⟩
      · rw [hid] at hsc'
        rw [hmeter] at hless
        exact .inl ⟨c, hc, hi, hok, hsc', hless⟩
      · grind
    rcases mem_or_eq_of_mem_set hscope with hmem | rfl
    · exact hold scope hmem hexhausted rfl rfl
    · rcases mark_exhausted hexhausted with hex | hless
      · exact hold sc (mem_of_getElem? hsc) hex (mark_id _ _ _).symm (mark_meter _ _ _).symm
      · exact hnow (by rwa [mark_meter])
  | marked scopes cost taken =>
    rcases (hblamed scope hscope hexhausted).later hlater with hdone | ⟨cost', taken', index', heq, hless⟩
    · exact .inl hdone
    · -- the checkpoint that failed is the one that is recorded
      cases heq
      exact .inl ⟨⟨i, cost, scopes, taken, false⟩, (.head _), rfl, rfl, ⟨scope, hscope, rfl, hexhausted⟩,
        hless⟩

theorem Next.keeps_short : ∀ cost taken index, thread'.phase = .marking cost taken index →
      ∃ (j : Nat) (scope : Scope), thread'.scopes[j]? = some scope ∧
        shared'.remaining scope.meter < cost ∧ (index ≤ j ∨ scope.exhausted = true) := by
  intro cost taken index hphase
  have hshort := hs.short
  cases h with
  | short | lost => grind
  | mark scopes cost taken index sc hsc =>
    cases hphase
    obtain ⟨j, scope, hscope, hless, hj⟩ := hshort cost taken index rfl
    by_cases hij : index = j
    · -- the scope is marked now
      subst hij
      cases hsc.symm.trans hscope
      refine ⟨index, Gas.mark shared cost sc, ?_, by rwa [mark_meter], .inr (by rw [Gas.mark, if_pos hless])⟩
      grind
    · refine ⟨j, scope, ?_, hless, ?_⟩
      · grind
      · grind
  | _ => cases hphase

theorem Next.keeps_charged :
    ∀ cost index, thread'.phase = .charging cost index → index ≤ thread'.scopes.length := by
  intro cost index hphase
  cases h with
  | checked | pay => grind
  | _ => cases hphase

theorem Next.sound (holder : ∀ c ∈ shared.history, ∀ scope ∈ c.scopes, scope.id < shared.guards) :
    Sound i shared' thread' :=
  ⟨h.fresh hs, h.nodup hs, h.keeps_marked hs holder, h.keeps_blamed hs, h.keeps_short hs,
    h.keeps_charged hs⟩

end Own

/-! ## Finished checkpoints -/

/-- A scope that an earlier checkpoint of the thread left exhausted makes a later one fail before
it charges anything. -/
def Refused (later earlier : Checkpoint) : Prop :=
  later.thread = earlier.thread → ∀ scope ∈ earlier.scopes, scope.exhausted = true →
    (∃ sc ∈ later.scopes, sc.id = scope.id) → later.ok = false ∧ later.taken = 0

@[grind cases]
structure Recorded (shared : Shared) : Prop where
  older : ∀ c ∈ shared.history, ∀ scope ∈ c.scopes, scope.id < shared.guards
  sticky : shared.history.Pairwise Refused
  failed : ∀ c ∈ shared.history, c.ok = false → ∃ scope ∈ c.scopes, scope.exhausted = true
  paid : ∀ c ∈ shared.history, c.ok = true → c.taken = c.scopes.length
  charged : ∀ c ∈ shared.history, ∀ scope ∈ c.scopes, scope.exhausted = true →
    Charged c.thread shared scope

theorem Recorded.record (h : Recorded shared)
    (holder : ∀ scope ∈ c.scopes, scope.id < shared.guards)
    (hsticky : ∀ c' ∈ shared.history, Refused c c')
    (hfailed : c.ok = false → ∃ scope ∈ c.scopes, scope.exhausted = true)
    (hpaid : c.ok = true → c.taken = c.scopes.length)
    (hcharged : ∀ scope ∈ c.scopes, scope.exhausted = true → Charged c.thread (shared.record c) scope) :
    Recorded (shared.record c) where
  older := forall_mem_cons.mpr ⟨holder, h.older⟩
  sticky := pairwise_cons.mpr ⟨hsticky, h.sticky⟩
  failed := forall_mem_cons.mpr ⟨hfailed, h.failed⟩
  paid := forall_mem_cons.mpr ⟨hpaid, h.paid⟩
  charged := forall_mem_cons.mpr ⟨hcharged, fun c' hc' scope hscope hexhausted =>
    (h.charged c' hc' scope hscope hexhausted).later (.record c.thread shared c rfl)⟩

theorem Sound.refused_of_started (h : Sound i shared thread) (hphase : thread.phase ≠ .idle)
    (hscopes : c.scopes = thread.scopes) (hthread : c.thread = i) :
    ∀ c' ∈ shared.history, Refused c c' := by
  intro c' hc' hsame scope hscope hexhausted hsc
  grind

theorem Next.keeps_recorded (h : Next i shared thread shared' thread') (hs : Sound i shared thread)
    (hr : Recorded shared) : Recorded shared' := by
  have hlater := h.later
  have hkept : ∀ c ∈ shared.history, ∀ scope ∈ c.scopes, scope.exhausted = true →
      Charged c.thread shared' scope := fun c hc scope hscope hexhausted =>
    (hr.charged c hc scope hscope hexhausted).later hlater
  -- a checkpoint is recorded when its thread is idle again, and its exhausted scopes are blamed
  have hblamed : thread'.phase = .idle → ∀ scope ∈ thread'.scopes, scope.exhausted = true →
      Charged i shared' scope := by
    intro hidle scope hscope hexhausted
    rcases h.keeps_blamed hs scope hscope hexhausted with hcharged | ⟨_, _, _, hphase, -⟩
    · exact hcharged
    · cases hidle.symm.trans hphase
  cases h with
  | refuse scopes cost h =>
    refine hr.record hs.fresh (fun _ _ _ _ _ _ _ => ⟨rfl, rfl⟩) (fun _ => ?_) (by simp) (hblamed rfl)
    simpa [isExhausted] using h
  | unmetered =>
    refine hr.record hs.fresh ?_ (by simp) (fun _ => rfl) (hblamed rfl)
    rintro c' - - scope - - ⟨sc, hsc, -⟩
    cases hsc
  | paid =>
    refine hr.record hs.fresh (hs.refused_of_started (by simp) rfl rfl) (by simp) (fun _ => ?_)
      (hblamed rfl)
    grind
  | marked =>
    refine hr.record hs.fresh (hs.refused_of_started (by simp) rfl rfl) (fun _ => ?_) (by simp)
      (hblamed rfl)
    grind
  | install =>
    refine ⟨?_, hr.sticky, hr.failed, hr.paid, hkept⟩
    grind
  | pay => exact ⟨hr.older, hr.sticky, hr.failed, hr.paid, hkept⟩
  | _ => exact hr

theorem sound_start (k : Nat) (shared : Shared) : Sound k shared ⟨[], .idle⟩ := by
  refine ⟨?_, nodup_nil, ?_, ?_, ?_, ?_⟩
  all_goals simp

theorem run_sound (hrun : machine.run (fresh credits) events = some s) :
    Each Sound s ∧ Recorded s.shared := by
  refine run_invariant (I := fun s => Each Sound s ∧ Recorded s.shared) ?_ ?_ hrun
  · rintro s e s' ⟨heach, hrec⟩ hstep
    refine ⟨heach.step hstep (fun _ _ => sound_start _ _) ?_ ?_, ?_⟩
    · intro i label c shared c' _ hnext hs
      exact (next_sound hnext).sound hs hrec.older
    · intro i label c shared c' k d _ hnext hne _ hs
      exact hs.later (next_sound hnext).later hne
    · obtain ⟨op, rfl, rfl⟩ | ⟨i, label, c, shared, c', rfl, hi, hnext, rfl⟩ :=
        step_cases hstep
      · exact hrec
      · exact (next_sound hnext).keeps_recorded (heach i c hi) hrec
  · refine ⟨?_, ?_, List.Pairwise.nil, ?_, ?_, ?_⟩
    · intro k c hc
      cases hc
    all_goals
      intro c hc
      cases hc

/-! ## Conservation -/

/-- What the first scopes of a stack charge to a meter. -/
def charges (cost : Nat) (scopes : List Scope) (meter : Nat) : Nat :=
  cost * (scopes.map Scope.meter).count meter

def Checkpoint.charged (c : Checkpoint) (meter : Nat) : Nat :=
  charges c.cost (c.scopes.take c.taken) meter

/-- What the checkpoint a thread is in has charged so far. -/
def Thread.pending (thread : Thread) (meter : Nat) : Nat :=
  match thread.phase with
  | .charging cost index => charges cost (thread.scopes.take index) meter
  | .marking cost taken _ => charges cost (thread.scopes.take taken) meter
  | _ => 0

/-- What has been charged to a meter, by finished checkpoints and by those under way. -/
def spent (s : State Shared Thread) (meter : Nat) : Nat :=
  (s.shared.history.map (fun c => c.charged meter)).sum +
    (s.calls.map (fun thread => thread.pending meter)).sum

@[simp] theorem charges_nil (cost meter : Nat) : charges cost [] meter = 0 := by
  simp [charges]

theorem charges_take_succ {index : Nat} (cost meter : Nat)
    (h : scopes[index]? = some scope) : charges cost (scopes.take (index + 1)) meter =
      charges cost (scopes.take index) meter + if meter = scope.meter then cost else 0 := by
  rw [take_add_one, h]
  by_cases hm : meter = scope.meter
  · subst hm
    simp [charges, Nat.mul_add]
  · simp [charges, hm, Ne.symm hm]

attribute [local simp] Thread.pending machine

theorem Next.conserved (h : Next i shared thread shared' thread') (meter : Nat) :
    (shared'.history.map (fun c => c.charged meter)).sum + thread'.pending meter +
        shared'.remaining meter =
      (shared.history.map (fun c => c.charged meter)).sum + thread.pending meter +
        shared.remaining meter := by
  cases h with
  | pay scopes cost index scope hscope h =>
    simp only [Thread.pending, Shared.pay, charges_take_succ cost meter hscope]
    grind
  | mark scopes cost taken index scope hscope =>
    have hsame : charges cost ((scopes.set index (Gas.mark shared cost scope)).take taken) meter =
        charges cost (scopes.take taken) meter := by
      unfold charges
      rw [map_take, map_set_mark Scope.meter hscope (mark_meter _ _ _), map_take]
    simp only [Thread.pending, hsame]
  | paid | marked =>
    simp [Shared.record, Checkpoint.charged]
    omega
  | refuse | unmetered => simp [Shared.record, Checkpoint.charged]
  | _ => simp

/-- **What has been charged to a meter and what it has left are its credits.** -/
theorem run_conserved (hrun : machine.run (fresh credits) events = some s) (meter : Nat) :
    spent s meter + s.shared.remaining meter = credits meter := by
  refine run_invariant
    (I := fun s => spent s meter + s.shared.remaining meter = credits meter) ?_ ?_ hrun
  · intro s e s' hs hstep
    obtain ⟨op, rfl, rfl⟩ | ⟨i, label, c, shared, c', rfl, hi, hnext, rfl⟩ :=
      step_cases hstep
    · simpa [spent] using hs
    · have hcons := (next_sound hnext).conserved meter
      have hsum := sum_map_set c' (fun thread => thread.pending meter) hi
      simp only [spent] at hs ⊢
      omega
  · simp [spent, fresh]

/-! ## Checkpoints that do not overlap -/

def Thread.meters (thread : Thread) : List Nat := thread.scopes.map Scope.meter

/-- Between reading its first meter and charging its last. -/
def Thread.busy (thread : Thread) : Bool :=
  match thread.phase with
  | .checking _ _ | .charging _ _ => true
  | _ => false

/-- No checkpoint charges a meter twice, and checkpoints under way at the same time share none. -/
@[grind cases]
structure Orderly (s : State Shared Thread) : Prop where
  nodup : ∀ (i : Nat) (thread : Thread), s.calls[i]? = some thread → thread.busy = true →
    thread.meters.Nodup
  apart : ∀ (i j : Nat) (thread thread' : Thread), i ≠ j → s.calls[i]? = some thread →
    s.calls[j]? = some thread' → thread.busy = true → thread'.busy = true →
    thread.meters.Disjoint thread'.meters

/-- The meters a checkpoint has read, or has still to charge, cover its cost. -/
def Funded (shared : Shared) (thread : Thread) : Prop :=
  match thread.phase with
  | .checking cost index => ∀ scope ∈ thread.scopes.take index, cost ≤ shared.remaining scope.meter
  | .charging cost index => ∀ scope ∈ thread.scopes.drop index, cost ≤ shared.remaining scope.meter
  | .marking _ taken _ => taken = 0
  | .idle => True

theorem Funded.congr (h : Funded shared thread)
    (hsame : thread.busy = true → ∀ meter ∈ thread.meters,
      shared'.remaining meter = shared.remaining meter) : Funded shared' thread := by
  obtain ⟨scopes, phase⟩ := thread
  cases phase with
  | idle => trivial
  | marking => exact h
  | checking =>
    intro scope hscope
    rw [hsame rfl scope.meter (mem_map_of_mem (mem_of_mem_take hscope))]
    exact h scope hscope
  | charging =>
    intro scope hscope
    rw [hsame rfl scope.meter (mem_map_of_mem (mem_of_mem_drop hscope))]
    exact h scope hscope

theorem Next.remaining_of_not_mem (h : Next i shared thread shared' thread') {meter : Nat}
    (hmeter : thread.busy = true → meter ∉ thread.meters) :
    shared'.remaining meter = shared.remaining meter := by
  cases h with
  | pay scopes cost index scope hscope h =>
    have hne : meter ≠ scope.meter := by
      rintro rfl
      exact hmeter rfl (mem_map_of_mem (mem_of_getElem? hscope))
    exact Function.update_of_ne hne _ _
  | _ => rfl

/-- **A checkpoint that has read its meters can pay**: charging does not fail. -/
theorem Next.funded (h : Next i shared thread shared' thread') (hf : Funded shared thread)
    (hnodup : thread.busy = true → thread.meters.Nodup) : Funded shared' thread' := by
  cases h with
  | start =>
    intro scope hscope
    cases hscope
  | enough scopes cost index scope hscope h =>
    intro sc hsc
    rw [take_add_one, hscope, Option.toList_some, mem_append, mem_singleton] at hsc
    rcases hsc with hsc | rfl
    · exact hf sc hsc
    · exact h
  | short => exact rfl
  | checked scopes cost index h =>
    intro scope hscope
    refine hf scope ?_
    rw [take_of_length_le h]
    exact hscope
  | pay scopes cost index scope hscope h =>
    intro sc hsc
    -- the meters still to be charged are not the one charged now
    have hsplit : scopes.drop index = scope :: scopes.drop (index + 1) := by
      obtain ⟨hlt, rfl⟩ := List.getElem?_eq_some_iff.mp hscope
      exact List.drop_eq_getElem_cons hlt
    have hrest : ((scopes.drop index).map Scope.meter).Nodup :=
      (hnodup rfl).sublist ((drop_sublist index scopes).map Scope.meter)
    rw [hsplit, map_cons, nodup_cons] at hrest
    have hne : sc.meter ≠ scope.meter := by
      intro heq
      exact hrest.1 (heq ▸ mem_map_of_mem hsc)
    have hold : cost ≤ shared.remaining sc.meter := hf sc (hsplit ▸ .tail _ hsc)
    simpa [Shared.pay, Function.update_of_ne hne] using hold
  | lost scopes cost index scope hscope h =>
    obtain ⟨hlt, rfl⟩ := List.getElem?_eq_some_iff.mp hscope
    have hmem : scopes[index] ∈ scopes.drop index := by
      rw [List.drop_eq_getElem_cons hlt]
      exact .head _
    exact absurd (hf _ hmem) (Nat.not_le.mpr h)
  | mark => exact hf
  | _ => trivial

/-- A checkpoint that succeeds charges its cost to every meter of its stack, and one that fails
charges nothing. -/
@[grind cases]
structure Exact (c : Checkpoint) : Prop where
  paid : c.ok = true → ∀ meter ∈ c.scopes.map Scope.meter, c.charged meter = c.cost
  unpaid : c.ok = false → ∀ meter, c.charged meter = 0

theorem exact_of_failed (hok : c.ok = false) (htaken : c.taken = 0) : Exact c where
  paid h := by rw [hok] at h; cases h
  unpaid _ meter := by simp [Checkpoint.charged, htaken]

theorem exact_of_paid (hok : c.ok = true) (htaken : c.scopes.length ≤ c.taken)
    (hnodup : (c.scopes.map Scope.meter).Nodup) : Exact c where
  paid _ meter hmeter := by
    rw [Checkpoint.charged, take_of_length_le htaken, charges,
      count_eq_one_of_mem hnodup hmeter, Nat.mul_one]
  unpaid h := by rw [hok] at h; cases h

theorem Next.exact (h : Next i shared thread shared' thread') (hf : Funded shared thread)
    (hnodup : thread.busy = true → thread.meters.Nodup)
    (hexact : ∀ c ∈ shared.history, Exact c) : ∀ c ∈ shared'.history, Exact c := by
  cases h with
  | refuse => exact forall_mem_cons.mpr ⟨exact_of_failed rfl rfl, hexact⟩
  | unmetered => exact forall_mem_cons.mpr ⟨exact_of_paid rfl (Nat.le_refl _) nodup_nil, hexact⟩
  | paid scopes cost index h => exact forall_mem_cons.mpr ⟨exact_of_paid rfl h (hnodup rfl), hexact⟩
  | marked => exact forall_mem_cons.mpr ⟨exact_of_failed rfl hf, hexact⟩
  | _ => exact hexact

theorem run_exact (hrun : machine.run (fresh credits) events = some s)
    (horderly : machine.Meets (fun s _ => Orderly s) (fresh credits) events) :
    ∀ c ∈ s.shared.history, Exact c := by
  refine (run_invariant_of_meets (I := fun s =>
    Each (fun _ => Funded) s ∧ ∀ c ∈ s.shared.history, Exact c) ?_ ?_ horderly hrun).2
  · rintro s e s' ⟨heach, hexact⟩ horderly hstep
    refine ⟨heach.step hstep (fun _ _ => trivial) ?_ ?_, ?_⟩
    · intro i label c shared c' hi hnext hf
      exact (next_sound hnext).funded hf (horderly.nodup i c hi)
    · intro i label c shared c' k d hi hnext hne hk hf
      refine hf.congr ?_
      intro hbusy meter hmeter
      refine (next_sound hnext).remaining_of_not_mem ?_
      intro hbusy' hmeter'
      exact horderly.apart k i d c hne hk hi hbusy hbusy' hmeter hmeter'
    · obtain ⟨op, rfl, rfl⟩ | ⟨i, label, c, shared, c', rfl, hi, hnext, rfl⟩ :=
        step_cases hstep
      · exact hexact
      · exact (next_sound hnext).exact (heach i c hi) (horderly.nodup i c hi) hexact
  · refine ⟨?_, ?_⟩
    · intro k c hc
      cases hc
    · intro c hc
      cases hc

/-! ## Scopes with enough credits -/

/-- The meters of the stack are distinct, each has at least the cost left now, and no checkpoint of the
thread that failed left one of the scopes exhausted. -/
structure Solvent (shared : Shared) (i : Nat) (scopes : List Scope) (cost : Nat) : Prop where
  nodup : (scopes.map Scope.meter).Nodup
  covers : ∀ scope ∈ scopes, cost ≤ shared.remaining scope.meter
  usable : ∀ scope ∈ scopes, ∀ c ∈ shared.history, c.thread = i → c.ok = false →
    ∀ sc ∈ c.scopes, sc.id = scope.id → sc.exhausted = false

/-- Steps of one thread in a row. -/
def steps (i n : Nat) : List (Event Unit Label) := List.replicate n (.step i .step)

/-- A loop over the stack that every scope lets go on reaches the end of the stack. -/
theorem run_loop {p : Nat → Phase} {P : Nat → Shared → Prop}
    (hgo : ∀ index < scopes.length, ∀ shared, P index shared →
      ∃ shared', machine.next i .step shared ⟨scopes, p index⟩ =
        some (shared', ⟨scopes, p (index + 1)⟩) ∧ P (index + 1) shared') (n : Nat) :
    ∀ (index : Nat) (s : State Shared Thread), index + n = scopes.length →
      s.calls[i]? = some ⟨scopes, p index⟩ → P index s.shared →
      ∃ s' : State Shared Thread, s'.calls[i]? = some ⟨scopes, p scopes.length⟩ ∧
        P scopes.length s'.shared ∧ ∀ es, machine.run s (steps i n ++ es) = machine.run s' es := by
  induction n with
  | zero =>
    rintro index s hlen hi hP
    rw [← hlen]
    exact ⟨s, hi, hP, fun _ => rfl⟩
  | succ n ih =>
    intro index s hlen hi hP
    obtain ⟨shared', hnext, hP'⟩ := hgo index (by omega) s.shared hP
    obtain ⟨s', hi', hdone, hrun⟩ := ih (index + 1) ⟨shared', _⟩ (by omega)
      (getElem?_set_of_some hi) hP'
    refine ⟨s', hi', hdone, fun es => ?_⟩
    rw [steps, replicate_succ, cons_append, run_step_cons hi hnext]
    exact hrun es

theorem run_charge (hi : s.calls[i]? = some ⟨scopes, .checking cost 0⟩)
    (hsolvent : Solvent s.shared i scopes cost) :
    ∃ n s', machine.run s (steps i n) = some s' ∧
      s'.shared.history = ⟨i, cost, scopes, scopes.length, true⟩ :: s.shared.history := by
  -- the first loop changes no meter
  obtain ⟨s1, hi1, hs1, hrun1⟩ := run_loop (p := .checking cost)
    (P := fun _ shared => shared = s.shared) (by
      rintro index hlt _ rfl
      have hcover := hsolvent.covers scopes[index] (getElem_mem hlt)
      exact ⟨_, by simp [next, getElem?_eq_getElem hlt, Nat.not_lt.mpr hcover], rfl⟩)
    scopes.length 0 s (Nat.zero_add _) hi rfl
  have hnext1 : machine.next i .step s1.shared ⟨scopes, .checking cost scopes.length⟩ =
      some (s1.shared, ⟨scopes, .charging cost 0⟩) := by simp [next]
  -- the second one finds what the first has seen
  obtain ⟨s2, hi2, ⟨-, hs2⟩, hrun2⟩ := run_loop (p := .charging cost)
    (P := fun index shared => Funded shared ⟨scopes, .charging cost index⟩ ∧
      shared.history = s.shared.history) (by
      rintro index hlt shared ⟨hf, hhistory⟩
      have hscope : scopes[index]? = some scopes[index] := getElem?_eq_getElem hlt
      have hcover : cost ≤ shared.remaining scopes[index].meter := by
        refine hf _ ?_
        rw [drop_eq_getElem_cons hlt]
        exact .head _
      have hpay := Next.pay (i := i) scopes cost index scopes[index] hscope hcover
      exact ⟨_, by simp [next, hscope, checkedSub, hcover],
        hpay.funded hf fun _ => hsolvent.nodup, hhistory⟩)
    scopes.length 0 ⟨s1.shared, _⟩ (Nat.zero_add _) (getElem?_set_of_some hi1)
    ⟨hs1 ▸ hsolvent.covers, congrArg _ hs1⟩
  have hnext2 : machine.next i .step s2.shared ⟨scopes, .charging cost scopes.length⟩ =
      some (s2.shared.record ⟨i, cost, scopes, scopes.length, true⟩, ⟨scopes, .idle⟩) := by
    simp [next]
  refine ⟨scopes.length + (1 + (scopes.length + 1)),
    ⟨s2.shared.record _, s2.calls.set i ⟨scopes, .idle⟩⟩, ?_, congrArg (cons _) hs2⟩
  rw [steps, replicate_add, ← steps, hrun1, replicate_add]
  refine (run_step_cons hi1 hnext1).trans ?_
  rw [replicate_zero, append_eq, nil_append, replicate_add, ← steps, hrun2]
  exact run_step_cons hi2 hnext2

/-- **A thread whose stack has enough credits can charge it**, whatever failed in scopes that have
ended. -/
theorem checkpoint_succeeds
    (hs : Sound i s.shared ⟨scopes, .idle⟩) (hi : s.calls[i]? = some ⟨scopes, .idle⟩)
    (hsolvent : Solvent s.shared i scopes cost) :
    ∃ n s', machine.run s (.step i (.charge cost) :: steps i n) = some s' ∧
      s'.shared.history = ⟨i, cost, scopes, scopes.length, true⟩ :: s.shared.history := by
  have hclear : isExhausted scopes = false := by
    rw [isExhausted, any_eq_false]
    intro scope hscope hexhausted
    rcases hs.blamed scope hscope hexhausted with
      ⟨c, hc, hi, hok, ⟨sc, hsc, hid, hleft⟩, -⟩ | ⟨_, _, _, hphase, -⟩
    · simp [hsolvent.usable scope hscope c hc hi hok sc hsc hid] at hleft
    · cases hphase
  cases scopes with
  | nil => exact ⟨0, _, run_step_cons hi rfl, rfl⟩
  | cons scope rest =>
    have hnext : machine.next i (.charge cost) s.shared ⟨scope :: rest, .idle⟩ =
        some (s.shared, ⟨scope :: rest, .checking cost 0⟩) := by simp [next, hclear]
    obtain ⟨n, s', hcharge, hhistory⟩ := run_charge
      (s := ⟨s.shared, _⟩) (getElem?_set_of_some hi) hsolvent
    exact ⟨n, s', (run_step_cons hi hnext).trans hcharge, hhistory⟩

/-! ## Results -/

/-- **Gas budgets.**  After every interleaving of threads that install and uninstall meters and
charge checkpoints: no meter has been charged more than its credits; a failed checkpoint leaves an
exhausted scope behind, and as long as that scope lasts every checkpoint fails and charges nothing; a
scope is left exhausted only if its meter has less than a failed checkpoint cost; a thread whose stack
has enough credits and no scope that was left exhausted can charge it; and if checkpoints were orderly, each of them
charged its cost once to every meter of its stack, or nothing at all. -/
theorem gas_budgets_exact (credits : Nat → Nat) (events : List (Event Unit Label))
    (s : State Shared Thread) (hrun : machine.run (fresh credits) events = some s) :
    (∀ meter, spent s meter + s.shared.remaining meter = credits meter) ∧
    (∀ c ∈ s.shared.history, c.ok = false → ∃ scope ∈ c.scopes, scope.exhausted = true) ∧
    s.shared.history.Pairwise Refused ∧
    (∀ c ∈ s.shared.history, ∀ scope ∈ c.scopes, scope.exhausted = true →
      Charged c.thread s.shared scope) ∧
    (∀ (i : Nat) (scopes : List Scope) (cost : Nat), s.calls[i]? = some ⟨scopes, .idle⟩ →
      Solvent s.shared i scopes cost →
      ∃ n s', machine.run s (.step i (.charge cost) :: steps i n) = some s' ∧
        s'.shared.history = ⟨i, cost, scopes, scopes.length, true⟩ :: s.shared.history) ∧
    (machine.Meets (fun s _ => Orderly s) (fresh credits) events →
      ∀ c ∈ s.shared.history, Exact c) := by
  obtain ⟨heach, hrec⟩ := run_sound hrun
  refine ⟨run_conserved hrun, hrec.failed, hrec.sticky, hrec.charged, ?_, run_exact hrun⟩
  intro i scopes cost hi hsolvent
  exact checkpoint_succeeds (heach i _ hi) hi hsolvent

theorem orderly_alone (h : thread.meters.Nodup) : Orderly ⟨shared, [thread]⟩ := by
  -- the only call is the first
  have hfirst : ∀ (i : Nat) d, [thread][i]? = some d → i = 0 ∧ d = thread := by
    intro i d hd
    cases i with
    | zero => exact ⟨rfl, (Option.some.inj hd).symm⟩
    | succ i => cases hd
  refine ⟨fun i d hd _ => ?_, fun i j d d' hne hd hd' => ?_⟩
  · rw [(hfirst i d hd).2]
    exact h
  · exact absurd ((hfirst i d hd).1.trans (hfirst j d' hd').1.symm) hne

/-- A thread with one meter, which it charges once. -/
def chargeOnce : List (Event Unit Label) :=
  [.call (), .step 0 (.install 0), .step 0 (.charge 1), .step 0 .step, .step 0 .step, .step 0 .step,
    .step 0 .step]

/-- Its checkpoint is exact. -/
theorem gas_budgets_exact_once :
    ∃ s, machine.run (fresh fun _ => 3) chargeOnce = some s ∧ s.shared.remaining 0 = 2 ∧
      ∀ c ∈ s.shared.history, Exact c := by
  refine ⟨_, rfl, rfl, (gas_budgets_exact (fun _ => 3) chargeOnce _ rfl).2.2.2.2.2 ?_⟩
  refine ⟨⟨by simp [fresh], by simp [fresh]⟩, ?_⟩
  rintro _ ⟨⟩
  refine ⟨orderly_alone nodup_nil, ?_⟩
  rintro _ ⟨⟩
  iterate 5
    refine ⟨orderly_alone (nodup_singleton 0), ?_⟩
    rintro _ ⟨⟩
  trivial

/-- A thread polls, inside the scope of a meter, a task that captured this meter; the task charges
1 and then 2. -/
def pollInside : List (Event Unit Label) :=
  [.call (), .step 0 (.install 0)] ++
    pollEvents 0 [0] (.step 0 (.charge 1) :: steps 0 6 ++ .step 0 (.charge 2) :: steps 0 8)

/-- A thread has read two meters when another thread charges the second of them. -/
def chargeBetween : List (Event Unit Label) :=
  [.call (), .call (), .step 0 (.install 0), .step 0 (.install 1), .step 1 (.install 1)] ++
    .step 0 (.charge 1) :: steps 0 3 ++ .step 1 (.charge 1) :: steps 1 4 ++ steps 0 5

/-- With its meter twice in the stack, the checkpoint of cost 1 takes 2 credits, and the one of
cost 2 takes 2 credits and fails; and a checkpoint that loses a meter to another thread fails after
it has charged the meter before. -/
theorem checkpoints_inexact : (∃ s, machine.run (fresh fun _ => 4) pollInside = some s ∧
      s.shared.history.map (fun c => (c.cost, c.ok, c.charged 0)) = [(2, false, 2), (1, true, 2)]) ∧
    (∃ s, machine.run (fresh fun _ => 1) chargeBetween = some s ∧
      s.shared.history.map (fun c => (c.thread, c.ok, c.charged 0, c.charged 1)) =
        [(0, false, 1, 0), (1, true, 0, 1)]) :=
  ⟨⟨_, rfl, rfl⟩, ⟨_, rfl, rfl⟩⟩

end Clojurust.Gas
