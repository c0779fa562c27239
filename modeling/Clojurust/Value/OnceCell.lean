import Clojurust.Lib.Interleaving

/-!
# Delays and lazy sequences

The cells of `Delay` and `LazySeq` (`crates/cljrs-value/src/types.rs`). A call looks at the cell
under its lock, and answers or takes the thunk out; the thunk runs without the lock, and its outcome
is stored under the lock again. Calls from other threads, from inside the thunk and after it
interleave with these two sections.

* `delay`, `lazySeq` — the sections of `Delay::force` and `LazySeq::realize`;
* `Once` — the history of a once-cell: one start, and replies that the thunk has produced;
* `once_cells_iff` — the histories of both cells that are those of a once-cell.
-/

namespace Clojurust.OnceCell

open Interleaving

variable {V S : Type}

/-! ## The cells -/

/-- The two sections under the lock: a look at the cell, which answers or takes the thunk, and the
storing of what the thunk produced. -/
structure Cell (S V : Type) where
  enter : S → Option (Except String V) × S
  leave : Except String V → S → Except String V × S

inductive DelayState (V : Type) where
  | pending
  | forced (v : V)

/-- `Delay::force`. -/
def delay (nil : V) : Cell (DelayState V) V where
  enter
    | .forced v => (some (.ok v), .forced v)
    | .pending => (none, .forced nil)
  leave
    | .ok v, _ => (.ok v, .forced v)
    | .error e, state => (.error e, state)

inductive LazySeqState (V : Type) where
  | pending
  | forced (v : V)
  | error (message : String)

namespace LazySeqState

/-- `LazySeq::error`. -/
def error? : LazySeqState V → Option String
  | error message => some message
  | _ => none

/-- `LazySeq::realize` up to the thunk. -/
def realizeEnter (nil : V) : LazySeqState V → Option V × LazySeqState V
  | forced v => (some v, forced v)
  | error message => (some nil, error message)
  | pending => (none, forced nil)

/-- `LazySeq::realize` after the thunk. -/
def realizeLeave (nil : V) : Except String V → V × LazySeqState V
  | .ok v => (v, forced v)
  | .error message => (nil, error message)

/-- What a caller sees that asks `error` after an answer. -/
def seen (state : LazySeqState V) (answer : V) : Except String V :=
  match state.error? with
  | some message => .error message
  | none => .ok answer

end LazySeqState

/-- `LazySeq::realize`, with the error that `LazySeq::error` reports on return. -/
def lazySeq (nil : V) : Cell (LazySeqState V) V where
  enter state :=
    match state.realizeEnter nil with
    | (answer, state) => (answer.map state.seen, state)
  leave outcome _ :=
    match LazySeqState.realizeLeave nil outcome with
    | (answer, state) => (state.seen answer, state)

/-! ## Calls on a cell -/

/-- A call: before its first section, while it runs the thunk, and after its return. -/
inductive Call (V : Type) where
  | entering
  | running
  | returned (result : Except String V)

inductive Label (V : Type) where
  | enter
  | finish (outcome : Except String V)

/-- What happens on a cell: a call starts the thunk, the thunk produces an outcome, a call
returns. -/
inductive Entry (V : Type) where
  | start (call : Nat)
  | produce (call : Nat) (outcome : Except String V)
  | reply (call : Nat) (result : Except String V)

/-- The cell, and its history with the newest entry first. -/
structure Shared (S V : Type) where
  state : S
  history : List (Entry V)

def machine (cell : Cell S V) : Machine Unit (Shared S V) (Call V) (Label V) where
  start _ := .entering
  next i label shared call :=
    match label, call with
    | .enter, .entering =>
      match cell.enter shared.state with
      | (some result, state) => some (⟨state, .reply i result :: shared.history⟩, .returned result)
      | (none, state) => some (⟨state, .start i :: shared.history⟩, .running)
    | .finish outcome, .running =>
      match cell.leave outcome shared.state with
      | (result, state) =>
        some (⟨state, .reply i result :: .produce i outcome :: shared.history⟩, .returned result)
    | _, _ => none

/-- A fresh cell. -/
def fresh (pending : S) : State (Shared S V) (Call V) := ⟨⟨pending, []⟩, []⟩

/-! ## Once-cells -/

/-- The thunk starts once; it produces an outcome in the call that started it; and a call returns
only what the thunk has produced. -/
def Legal (before : List (Entry V)) : Entry V → Prop
  | .start _ => ∀ call, .start call ∉ before
  | .produce call _ => .start call ∈ before
  | .reply _ result => ∃ call, .produce call result ∈ before

/-- The history of a once-cell. -/
def Once (history : List (Entry V)) : Prop := Justified Legal history

/-- No call runs the thunk. -/
def Idle (s : State (Shared S V) (Call V)) : Prop :=
  ∀ (i : Nat), s.calls[i]? ≠ some .running

/-- The outcomes that the thunk has produced. -/
def Produced (s : State (Shared S V) (Call V)) (outcome : Except String V) : Prop :=
  ∃ call, .produce call outcome ∈ s.shared.history

/-- No call enters while the thunk runs, or after it has failed. -/
def ForcedApart (s : State (Shared S V) (Call V)) : Event Unit (Label V) → Prop
  | .step _ .enter => Idle s ∧ ∀ e, ¬ Produced s (.error e)
  | _ => True

/-- No call enters while the thunk runs. -/
def RealizedApart (s : State (Shared S V) (Call V)) : Event Unit (Label V) → Prop
  | .step _ .enter => Idle s
  | _ => True

def Entry.isStart : Entry V → Bool
  | .start _ => true
  | _ => false

/-- How often the thunk was started. -/
def starts (history : List (Entry V)) : Nat := history.countP Entry.isStart

/-! ## The states of a cell -/

/-- A cell in its four states: pending, while the thunk runs, after it succeeded and after it
failed. A call that finds the thunk running is answered `nil`. -/
structure States (cell : Cell S V) (nil : V) where
  pending : S
  busy : S
  done : V → S
  failed : String → S
  afterFailure : String → Except String V
  enter_pending : cell.enter pending = (none, busy)
  enter_busy : cell.enter busy = (some (.ok nil), busy)
  enter_done : ∀ v, cell.enter (done v) = (some (.ok v), done v)
  enter_failed : ∀ e, cell.enter (failed e) = (some (afterFailure e), failed e)
  leave_ok : ∀ v, cell.leave (.ok v) busy = (.ok v, done v)
  leave_error : ∀ e, cell.leave (.error e) busy = (.error e, failed e)

def delayStates (nil : V) : States (delay nil) nil where
  pending := .pending
  busy := .forced nil
  done v := .forced v
  failed _ := .forced nil
  afterFailure _ := .ok nil
  enter_pending := rfl
  enter_busy := rfl
  enter_done _ := rfl
  enter_failed _ := rfl
  leave_ok _ := rfl
  leave_error _ := rfl

def lazySeqStates (nil : V) : States (lazySeq nil) nil where
  pending := .pending
  busy := .forced nil
  done v := .forced v
  failed e := .error e
  afterFailure e := .error e
  enter_pending := rfl
  enter_busy := rfl
  enter_done _ := rfl
  enter_failed _ := rfl
  leave_ok _ := rfl
  leave_error _ := rfl

section Cell

variable {cell : Cell S V} {nil : V} (states : States cell nil)

/-- The cell is in one of its states, with the calls and the history that belong to it. -/
inductive Phase (s : State (Shared S V) (Call V)) : Prop where
  | pending (hstate : s.shared.state = states.pending) (hidle : Idle s)
      (hstart : ∀ call, .start call ∉ s.shared.history) (hproduced : ∀ o, ¬ Produced s o)
  | busy (r : Nat) (hstate : s.shared.state = states.busy) (hrunner : s.calls[r]? = some .running)
      (honly : ∀ i, s.calls[i]? = some .running → i = r) (hstart : .start r ∈ s.shared.history)
      (hproduced : ∀ o, ¬ Produced s o)
  | done (v : V) (hstate : s.shared.state = states.done v) (hidle : Idle s)
      (hproduced : ∀ o, Produced s o ↔ o = .ok v)
  | failed (e : String) (hstate : s.shared.state = states.failed e) (hidle : Idle s)
      (hproduced : ∀ o, Produced s o ↔ o = .error e)

/-- The condition on an entering call: the thunk does not run, and after a failure the cell answers
with it. -/
def Apart (s : State (Shared S V) (Call V)) : Event Unit (Label V) → Prop
  | .step _ .enter => Idle s ∧ ∀ e, Produced s (.error e) → states.afterFailure e = .error e
  | _ => True

/-! ## Steps -/

variable {i : Nat} {calls : List (Call V)} {result : Except String V}
  {s : State (Shared S V) (Call V)} {state : S} {s' : State (Shared S V) (Call V)}
  {es : List (Event Unit (Label V))}

theorem next_cases {label : Label V} {shared shared' : Shared S V} {c c' : Call V}
    (h : (machine cell).next i label shared c = some (shared', c')) :
    (∃ result state, label = .enter ∧ c = .entering ∧
        cell.enter shared.state = (some result, state) ∧
        shared' = ⟨state, .reply i result :: shared.history⟩ ∧ c' = .returned result) ∨
    (∃ state, label = .enter ∧ c = .entering ∧ cell.enter shared.state = (none, state) ∧
        shared' = ⟨state, .start i :: shared.history⟩ ∧ c' = .running) ∨
    (∃ outcome result state, label = .finish outcome ∧ c = .running ∧
        cell.leave outcome shared.state = (result, state) ∧
        shared' = ⟨state, .reply i result :: .produce i outcome :: shared.history⟩ ∧
        c' = .returned result) := by
  cases label with
  | enter =>
    cases c with
    | entering =>
      simp only [machine] at h
      grind
    | running | returned => cases h
  | finish outcome =>
    cases c with
    | entering => cases h
    | running =>
      cases hleave : cell.leave outcome shared.state with
      | mk =>
        simp only [machine, hleave] at h
        grind
    | returned => cases h

theorem running_append :
    (calls ++ [.entering])[i]? = some .running ↔ calls[i]? = some .running := by grind

theorem running_set_returned {j : Nat} :
    (calls.set i (.returned result))[j]? = some .running ↔ j ≠ i ∧ calls[j]? = some .running := by
  grind

theorem running_set_running {j : Nat} {c : Call V} (hi : calls[i]? = some c) :
    (calls.set i .running)[j]? = some .running ↔ j = i ∨ calls[j]? = some .running := by grind

theorem idle_set_returned (h : Idle s) (i : Nat) (result : Except String V) (shared : Shared S V) :
    Idle ⟨shared, s.calls.set i (.returned result)⟩ :=
  fun j hj => h j (running_set_returned.mp hj).2

theorem produced_reply {o : Except String V} :
    Produced ⟨⟨state, .reply i result :: s.shared.history⟩, calls⟩ o ↔ Produced s o := by
  simp [Produced]

variable (h : Phase states s)

include h

theorem reply_spec (hi : s.calls[i]? = some .entering)
    (henter : cell.enter s.shared.state = (some result, state)) :
    Phase states ⟨⟨state, .reply i result :: s.shared.history⟩, s.calls.set i (.returned result)⟩ ∧
      (Produced s result ↔ Apart states s (.step i .enter)) := by
  cases h with
  | pending hstate => rw [hstate, states.enter_pending] at henter; cases henter
  | busy r hstate hrunner honly hstart hproduced =>
    rw [hstate, states.enter_busy] at henter
    cases henter
    have hri : r ≠ i := by
      rintro rfl
      rw [hi] at hrunner
      cases hrunner
    refine ⟨.busy r rfl (running_set_returned.mpr ⟨hri, hrunner⟩) ?_ ?_ ?_, ?_, ?_⟩
    · grind
    · exact .tail _ hstart
    · intro o ho
      exact hproduced o (produced_reply.mp ho)
    · grind
    · intro hapart
      exact absurd hrunner (hapart.1 r)
  | done v hstate hidle hproduced =>
    rw [hstate, states.enter_done] at henter
    cases henter
    refine ⟨.done v rfl (idle_set_returned hidle i _ _) fun o => produced_reply.trans (hproduced o),
      fun _ => ⟨hidle, ?_⟩, fun _ => (hproduced _).mpr rfl⟩
    grind
  | failed e hstate hidle hproduced =>
    rw [hstate, states.enter_failed] at henter
    cases henter
    refine ⟨.failed e rfl (idle_set_returned hidle i _ _)
      fun o => produced_reply.trans (hproduced o), ?_, ?_⟩
    · intro ho
      refine ⟨hidle, ?_⟩
      grind
    · intro hapart
      exact (hproduced _).mpr (hapart.2 e ((hproduced _).mpr rfl))

theorem start_spec (hi : s.calls[i]? = some .entering)
    (henter : cell.enter s.shared.state = (none, state)) :
    Phase states ⟨⟨state, .start i :: s.shared.history⟩, s.calls.set i .running⟩ ∧
      (∀ call, .start call ∉ s.shared.history) ∧ Apart states s (.step i .enter) := by
  cases h with
  | pending hstate hidle hstart hproduced =>
    rw [hstate, states.enter_pending] at henter
    cases henter
    refine ⟨.busy i rfl ((running_set_running hi).mpr (.inl rfl)) ?_ (.head _) ?_, hstart,
      hidle, fun e he => absurd he (hproduced _)⟩
    · intro j hj
      exact ((running_set_running hi).mp hj).resolve_right (hidle j)
    · rintro o ⟨call, hcall⟩
      exact hproduced o ⟨call, (List.mem_cons.mp hcall).resolve_left (by simp)⟩
  | busy r hstate => rw [hstate, states.enter_busy] at henter; cases henter
  | done v hstate => rw [hstate, states.enter_done] at henter; cases henter
  | failed e hstate => rw [hstate, states.enter_failed] at henter; cases henter

theorem finish_spec {outcome : Except String V} (hi : s.calls[i]? = some .running)
    (hleave : cell.leave outcome s.shared.state = (result, state)) :
    Phase states ⟨⟨state, .reply i result :: .produce i outcome :: s.shared.history⟩,
        s.calls.set i (.returned result)⟩ ∧
      result = outcome ∧ .start i ∈ s.shared.history := by
  cases h with
  | pending hstate hidle | done v hstate hidle | failed e hstate hidle => exact absurd hi (hidle i)
  | busy r hstate hrunner honly hstart hproduced =>
    cases honly i hi
    have hidle : ∀ shared : Shared S V, Idle ⟨shared, s.calls.set i (.returned result)⟩ := by
      intro shared j hj
      obtain ⟨hji, hj⟩ := running_set_returned.mp hj
      exact hji (honly j hj)
    have honce : ∀ (state : S) (calls : List (Call V)) (o : Except String V),
        Produced ⟨⟨state, .reply i result :: .produce i outcome :: s.shared.history⟩, calls⟩ o
          ↔ o = outcome := by
      intro state calls o
      constructor
      · rintro ⟨call, hcall⟩
        rcases List.mem_cons.mp hcall with hreply | hcall
        · cases hreply
        · rcases List.mem_cons.mp hcall with hproduce | hcall
          · grind
          · exact absurd ⟨call, hcall⟩ (hproduced o)
      · rintro rfl
        exact ⟨i, by simp⟩
    rw [hstate] at hleave
    cases outcome with
    | ok v =>
      rw [states.leave_ok] at hleave
      cases hleave
      exact ⟨.done v rfl (hidle _) (honce _ _), rfl, hstart⟩
    | error e =>
      rw [states.leave_error] at hleave
      cases hleave
      exact ⟨.failed e rfl (hidle _) (honce _ _), rfl, hstart⟩

/-- **One event**: the cell stays in one of its states, and the history stays that of a once-cell
exactly when the event meets the condition. -/
theorem step_spec {e : Event Unit (Label V)} (hstarts : starts s.shared.history ≤ 1)
    (hstep : (machine cell).step s e = some s') :
    (Phase states s' ∧ starts s'.shared.history ≤ 1) ∧
      (Once s'.shared.history ↔ Once s.shared.history ∧ Apart states s e) := by
  obtain ⟨op, rfl, rfl⟩ | ⟨i, label, c, shared, c', rfl, hi, hnext, rfl⟩ := Machine.step_cases hstep
  · refine ⟨⟨?_, hstarts⟩, (and_iff_left trivial).symm⟩
    cases h with
    | pending hstate hidle hstart hproduced =>
      exact .pending hstate (fun i hi => hidle i (running_append.mp hi)) hstart hproduced
    | busy r hstate hrunner honly hstart hproduced =>
      exact .busy r hstate (running_append.mpr hrunner) (fun i hi => honly i (running_append.mp hi))
        hstart hproduced
    | done v hstate hidle hproduced =>
      exact .done v hstate (fun i hi => hidle i (running_append.mp hi)) hproduced
    | failed e hstate hidle hproduced =>
      exact .failed e hstate (fun i hi => hidle i (running_append.mp hi)) hproduced
  · obtain ⟨result, state, rfl, rfl, henter, rfl, rfl⟩ | ⟨state, rfl, rfl, henter, rfl, rfl⟩ |
      ⟨outcome, result, state, rfl, rfl, hleave, rfl, rfl⟩ := next_cases hnext
    · obtain ⟨hphase, hiff⟩ := reply_spec states h hi henter
      exact ⟨⟨hphase, hstarts⟩, and_comm.trans (and_congr_right fun _ => hiff)⟩
    · obtain ⟨hphase, hstart, hapart⟩ := start_spec states h hi henter
      have hnone : starts s.shared.history = 0 := by
        refine List.countP_eq_zero.mpr ?_
        intro entry hentry
        cases entry with
        | start call => exact absurd hentry (hstart call)
        | produce | reply => exact Bool.false_ne_true
      refine ⟨⟨hphase, ?_⟩, (and_iff_right hstart).trans (and_iff_left hapart).symm⟩
      rw [starts, List.countP_cons_of_pos rfl]
      exact Nat.succ_le_succ (Nat.le_of_eq hnone)
    · obtain ⟨hphase, rfl, hstart⟩ := finish_spec states h hi hleave
      refine ⟨⟨hphase, hstarts⟩, fun honce => ⟨honce.2.2, trivial⟩,
        fun honce => ⟨⟨i, (.head _)⟩, hstart, honce.1⟩⟩

omit h

theorem fresh_phase : Phase states (fresh states.pending) := by
  refine .pending rfl ?_ ?_ ?_
  · intro i hi
    cases hi
  · intro call hcall
    cases hcall
  · rintro o ⟨call, hcall⟩
    cases hcall

/-- **A run**: the thunk is started at most once, and the history is that of a once-cell exactly when
every call entered apart. -/
theorem run_spec (hrun : (machine cell).run (fresh states.pending) es = some s) :
    (Phase states s ∧ starts s.shared.history ≤ 1) ∧ (Once s.shared.history ↔
      (machine cell).Meets (Apart states) (fresh states.pending) es) := by
  obtain ⟨hphase, hiff⟩ := Machine.run_iff_meets
    (I := fun s => Phase states s ∧ starts s.shared.history ≤ 1) (G := fun s => Once s.shared.history)
    (fun _ _ _ hs => step_spec states hs.1 hs.2) ⟨fresh_phase states, Nat.zero_le 1⟩ hrun
  exact ⟨hphase, hiff.trans (and_iff_right trivial)⟩

end Cell

/-! ## Delays and lazy sequences -/

theorem apart_delay (nil : V) (s : State (Shared (DelayState V) V) (Call V))
    (e : Event Unit (Label V)) : Apart (delayStates nil) s e ↔ ForcedApart s e := by
  cases e with
  | call op => exact Iff.rfl
  | step i label =>
    cases label with
    | enter =>
      refine and_congr_right fun _ => forall_congr' fun e => imp_congr_right fun _ => ?_
      exact ⟨nofun, False.elim⟩
    | finish => exact Iff.rfl

theorem apart_lazySeq (nil : V) (s : State (Shared (LazySeqState V) V) (Call V))
    (e : Event Unit (Label V)) : Apart (lazySeqStates nil) s e ↔ RealizedApart s e := by
  cases e with
  | call op => exact Iff.rfl
  | step i label =>
    cases label with
    | enter => exact ⟨fun h => h.1, fun h => ⟨h, fun _ _ => rfl⟩⟩
    | finish => exact Iff.rfl

/-- **Delays and lazy sequences as once-cells.** For every interleaving of calls the thunk is
started at most once, and a lazy sequence whose thunk failed reports the error. The history is that
of a once-cell exactly when no call entered while the thunk ran and, for a delay, none entered after
it had failed. -/
theorem once_cells_iff (nil : V) :
    (∀ (es : List (Event Unit (Label V))) (s : State (Shared (DelayState V) V) (Call V)),
      (machine (delay nil)).run (fresh .pending) es = some s → starts s.shared.history ≤ 1 ∧
        (Once s.shared.history ↔ (machine (delay nil)).Meets ForcedApart (fresh .pending) es)) ∧
    (∀ (es : List (Event Unit (Label V))) (s : State (Shared (LazySeqState V) V) (Call V)),
      (machine (lazySeq nil)).run (fresh .pending) es = some s → starts s.shared.history ≤ 1 ∧
        (∀ e, Produced s (.error e) → s.shared.state.error? = some e) ∧
        (Once s.shared.history ↔ (machine (lazySeq nil)).Meets RealizedApart (fresh .pending) es)) := by
  constructor
  · intro es s hrun
    obtain ⟨⟨-, hstarts⟩, hiff⟩ := run_spec (delayStates nil) hrun
    exact ⟨hstarts, hiff.trans (Machine.meets_congr (apart_delay nil) _ _)⟩
  · intro es s hrun
    obtain ⟨⟨hphase, hstarts⟩, hiff⟩ := run_spec (lazySeqStates nil) hrun
    refine ⟨hstarts, fun e hfailed => ?_, hiff.trans (Machine.meets_congr (apart_lazySeq nil) _ _)⟩
    cases hphase with
    | pending hstate hidle hstart hproduced
    | busy r hstate hrunner honly hstart hproduced => exact absurd hfailed (hproduced _)
    | done v hstate hidle hproduced => cases (hproduced _).mp hfailed
    | failed e' hstate hidle hproduced =>
      cases (hproduced _).mp hfailed
      rw [hstate]
      rfl

/-- A delay forced twice, one call after the other. -/
theorem once_cells_iff_twice :
    Once [.reply 1 (.ok 7), .reply 0 (.ok 7), .produce 0 (.ok 7), .start 0] ↔
      (machine (delay 0)).Meets ForcedApart (fresh .pending)
        [.call (), .step 0 .enter, .step 0 (.finish (.ok 7)), .call (), .step 1 .enter] :=
  ((once_cells_iff 0).1 _ ⟨⟨.forced 7, [.reply 1 (.ok 7), .reply 0 (.ok 7), .produce 0 (.ok 7),
    .start 0]⟩, [.returned (.ok 7), .returned (.ok 7)]⟩ rfl).2

/-- **Placeholders are answered.** A delay whose thunk failed answers `nil` from then on; and a call
that enters a delay or a lazy sequence while its thunk runs, from another thread or from inside the
thunk, is answered `nil`. -/
theorem placeholder_answered : (∃ s, (machine (delay (none : Option Nat))).run (fresh .pending)
        [.call (), .step 0 .enter, .step 0 (.finish (.error "boom")), .call (), .step 1 .enter]
          = some s ∧
      s.shared.history
        = [.reply 1 (.ok none), .reply 0 (.error "boom"), .produce 0 (.error "boom"), .start 0] ∧
      ¬ Once s.shared.history) ∧
    (∃ s, (machine (delay (none : Option Nat))).run (fresh .pending)
        [.call (), .step 0 .enter, .call (), .step 1 .enter] = some s ∧
      s.shared.history = [.reply 1 (.ok none), .start 0] ∧ ¬ Once s.shared.history) ∧
    (∃ s, (machine (lazySeq (none : Option Nat))).run (fresh .pending)
        [.call (), .step 0 .enter, .call (), .step 1 .enter] = some s ∧
      s.shared.history = [.reply 1 (.ok none), .start 0] ∧ ¬ Once s.shared.history) := by
  refine ⟨⟨_, rfl, rfl, ?_⟩, ⟨_, rfl, rfl, ?_⟩, ⟨_, rfl, rfl, ?_⟩⟩
  all_goals
    rintro ⟨⟨call, hcall⟩, -⟩
    simp [fresh] at hcall

end Clojurust.OnceCell
