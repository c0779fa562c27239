import Clojurust.Future.Basic

/-!
# A future settles once

* `Legal`, `SettlesOnce` — the history of a future that is settled once, with the outcome of its body
  or by a cancellation, and read as it was settled;
* `Step`, `next_step` — what a step does;
* `Body` — who owns the body, and what the history says of it;
* `futures_settle_iff` — the histories of futures that settle once.
-/

namespace Clojurust.Future

open Interleaving List

variable {V : Type}

/-! ## Histories -/

def Entry.isStart : Entry V → Bool
  | .start _ => true
  | _ => false

/-- The entry is about the body. -/
def Entry.isBody : Entry V → Bool
  | .start _ | .produce _ _ => true
  | _ => false

/-- How often the body was started. -/
def starts (history : List (Entry V)) : Nat := history.countP Entry.isStart

/-- The state after a history. -/
def current : List (Entry V) → FutureState V
  | [] => .running
  | .settle state :: _ => state
  | _ :: before => current before

section Legal

variable (errorValue str : String → V)

/-- A reader answers in a state; a `deref` with a timeout may give up while the future runs. -/
def Answers (reader : Reader) (state : FutureState V) (reply : Reply V) : Prop :=
  reader.read str state = some reply ∨
    (state = .running ∧ reader = .derefTimed ∧ reply = .timedOut)

/-- The body starts once and ends where it was started. The future is settled once, by a cancellation
or with the outcome of the body, gas exhaustion as such. Who reads it later answers as it was
settled, and not with `nil` for an error. -/
def Legal (before : List (Entry V)) : Entry V → Prop
  | .start _ => ∀ i, .start i ∉ before
  | .produce i _ => .start i ∈ before
  | .settle state => (∀ state', .settle state' ∉ before) ∧
      (state = .cancelled ∨ ∃ i outcome, .produce i outcome ∈ before ∧ state = settled errorValue outcome)
  | .observe reader reply => reply ≠ .boxed none ∧
      ((∃ state, .settle state ∈ before ∧ Answers str reader state reply) ∨
        ((∀ state, .settle state ∉ before) ∧ Answers str reader .running reply))

/-- The history of a future that settles once. -/
def SettlesOnce (history : List (Entry V)) : Prop := Justified (Legal errorValue str) history

end Legal

/-- The outcome of the body can be recorded: an executor task finds the future running, and `@` has
not run out of gas. -/
def Recordable (state : FutureState V) (outcome : Except (EvalError V) V) : Runner → Prop
  | .sugar => state = .running → outcome ≠ .error .gasExhausted
  | .builtin _ => True
  | _ => state = .running

/-- The condition on a step: the outcome of a body can be recorded, and a compiled `deref` does not
find an error. -/
def Heeds (s : State (Shared V) (Pc V)) : Event Op (Label V) → Prop
  | .call _ => True
  | .step i _ => (∀ runner outcome, s.calls[i]? = some (.settling runner outcome) →
      Recordable s.shared.state outcome runner) ∧
      (s.calls[i]? = some (.observing .rtDeref) → ∀ e, awaitValue s.shared.state ≠ some (.error e))

/-! ## What the writers record -/

section Writers

variable (errorValue : String → V) (outcome : Except (EvalError V) V)

theorem settled_ne : settled errorValue outcome ≠ .running ∧ settled errorValue outcome ≠ .cancelled := by
  rcases outcome with (v | _ | m) | v <;> exact ⟨nofun, nofun⟩

theorem stolenBuiltin_eq :
    stolenBuiltin errorValue (outcome.mapError invokeError) = settled errorValue outcome := by
  rcases outcome with (v | _ | m) | v <;> rfl

theorem stolenSugar_eq_iff :
    stolenSugar errorValue outcome = settled errorValue outcome ↔ outcome ≠ .error .gasExhausted := by
  rcases outcome with (v | _ | m) | v
  · exact ⟨fun _ => nofun, fun _ => rfl⟩
  · exact ⟨nofun, fun h => absurd rfl h⟩
  · exact ⟨fun _ => nofun, fun _ => rfl⟩
  · exact ⟨fun _ => nofun, fun _ => rfl⟩

theorem stolenSugar_ne : stolenSugar errorValue outcome ≠ .running ∧
    stolenSugar errorValue outcome ≠ .cancelled := by
  rcases outcome with e | v <;> exact ⟨nofun, nofun⟩

theorem settled_relay (runner : Runner) :
    settled errorValue (runner.relay errorValue outcome) = settled errorValue outcome := by
  cases runner with
  | call => rcases outcome with (v | _ | m) | v <;> rfl
  | _ => rfl

end Writers

/-! ## Steps -/

section

variable (errorValue str : String → V) (i : Nat) (shared : Shared V)

/-- What a step of participant `i` does. -/
inductive Step : Pc V → Shared V → Pc V → Prop where
  | launch (runner : Runner) :
      Step (.launching runner) (shared.record (.start i)) (.running runner)
  | claim (runner : Runner) (hthunk : shared.thunk = true) :
      Step (.claiming runner) ({ shared with thunk := false }.record (.start i))
        (.running runner)
  | skip (runner : Runner) : Step (.claiming runner) shared runner.after
  | pend : Step (.running .compiled) shared (.running .compiled)
  | produce (runner : Runner) (outcome : Except (EvalError V) V) :
      Step (.running runner) (shared.record (.produce i outcome))
        (.settling runner (runner.relay errorValue outcome))
  | settle (runner : Runner) (outcome : Except (EvalError V) V) :
      Step (.settling runner outcome)
        (shared.settle errorValue outcome runner) runner.after
  | cancel : Step .cancelling (shared.writeIfRunning .cancelled)
      (.returned (some (.flag true)))
  | observe (reader : Reader) (reply : Reply V) (h : Answers str reader shared.state reply) :
      Step (.observing reader) (shared.record (.observe reader reply))
        (.returned (some reply))

end

theorem next_step {errorValue str : String → V} {i : Nat} {label : Label V} {shared shared' : Shared V}
    {pc pc' : Pc V} (h : next errorValue str i label shared pc = some (shared', pc')) :
    Step errorValue str i shared pc shared' pc' := by
  unfold next at h
  split at h
  · cases h
    exact .launch _
  · split at h
    · rename_i hthunk
      cases h
      exact .claim _ hthunk
    · cases h
      exact .skip _
  · cases h
  · cases h
    exact .produce _ _
  · split at h
    · cases h
      exact .pend
    · rename_i outcome _
      cases h
      exact .produce .compiled outcome
  · cases h
    exact .settle _ _
  · cases h
    exact .cancel
  · split at h
    · cases h
    · rename_i reply hread
      cases h
      exact .observe _ reply (.inl hread)
  · split at h
    · rename_i hrunning
      cases h
      exact .observe .derefTimed .timedOut (.inr ⟨hrunning, rfl, rfl⟩)
    · cases h
  · cases h

/-! ## The owner of the body -/

/-- The participant owns the body, from before its start until it is recorded. -/
def Pc.owns : Pc V → Bool
  | .launching _ | .running _ | .settling _ _ => true
  | _ => false

theorem owns_after (runner : Runner) : (runner.after : Pc V).owns = false := by
  rcases runner with _ | _ | _ | _ | _ | _ <;> rfl

/-- At most one participant owns the body, none while it can be claimed; and the history says of the
body what its owner has done. -/
@[grind cases]
structure Body (errorValue : String → V) (s : State (Shared V) (Pc V)) : Prop where
  one : ∀ (i j : Nat) (pc pc' : Pc V), s.calls[i]? = some pc → s.calls[j]? = some pc' →
    pc.owns = true → pc'.owns = true → i = j
  claimable : s.shared.thunk = true → ∀ (i : Nat) (pc : Pc V), s.calls[i]? = some pc → pc.owns = false
  unstarted : (s.shared.thunk = true ∨ ∃ (i : Nat) (runner : Runner),
    s.calls[i]? = some (.launching runner)) → ∀ e ∈ s.shared.history, e.isBody = false
  running : ∀ (i : Nat) (runner : Runner), s.calls[i]? = some (.running runner) →
    .start i ∈ s.shared.history ∧ ∀ j outcome, .produce j outcome ∉ s.shared.history
  settling : ∀ (i : Nat) (runner : Runner) (outcome : Except (EvalError V) V),
    s.calls[i]? = some (.settling runner outcome) → ∃ produced,
      outcome = runner.relay errorValue produced ∧ .produce i produced ∈ s.shared.history ∧
      ∀ j outcome', .produce j outcome' ∈ s.shared.history → outcome' = produced
  starts_le : starts s.shared.history ≤ 1
  state_eq : s.shared.state = current s.shared.history
  written : ∀ state, .settle state ∈ s.shared.history → state ≠ .running

section Current

variable {history : List (Entry V)}

theorem settle_mem_current (h : current history ≠ .running) : .settle (current history) ∈ history := by
  induction history with
  | nil => exact absurd rfl h
  | cons e before ih =>
    cases e with
    | settle => exact .head _
    | _ => exact .tail _ (ih h)

theorem current_running_iff (hwritten : ∀ state, .settle state ∈ history → state ≠ .running) :
    current history = .running ↔ ∀ state, .settle state ∉ history := by
  constructor
  · intro hrunning
    induction history with
    | nil => exact nofun
    | cons e before ih =>
      intro state hstate
      cases e with
      | settle state' => exact hwritten state' mem_cons_self hrunning
      | start | produce | observe =>
        refine ih (fun st hst => hwritten st (.tail _ hst)) hrunning state ?_
        grind
  · intro hnone
    by_contra hnot
    exact hnone _ (settle_mem_current hnot)

end Current

theorem starts_eq_zero {history : List (Entry V)} (h : ∀ e ∈ history, e.isBody = false) :
    starts history = 0 := by
  refine countP_eq_zero.mpr ?_
  intro e he hstart
  have hbody := h e he
  cases e with
  | start => cases hbody
  | _ => cases hstart

theorem writeIfRunning_cases (shared : Shared V) (state : FutureState V) :
    (shared.state = .running ∧ shared.writeIfRunning state = shared.write state) ∨
      (shared.state ≠ .running ∧ shared.writeIfRunning state = shared) := by
  unfold Shared.writeIfRunning
  grind

section Steps

variable {errorValue str : String → V} {s : State (Shared V) (Pc V)} {i : Nat} {pc pc' : Pc V}
  {shared' : Shared V}

/-- A compiled `deref` answers `nil` for an error, and nobody else does. -/
theorem Answers.ne_boxed_none_iff {reader : Reader} {state : FutureState V} {reply : Reply V}
    (h : Answers str reader state reply) :
    reply ≠ .boxed none ↔ (reader = .rtDeref → ∀ e, awaitValue state ≠ some (.error e)) := by
  rcases h with h | ⟨-, rfl, rfl⟩
  · cases reader with
    | rtDeref => cases state <;> cases h <;> simp [awaitValue, Except.toOption]
    | isDone | isCancelled => cases h; simp
    | await | deref | derefTimed | checkReady =>
      obtain ⟨_, -, rfl⟩ := Option.map_eq_some_iff.mp h
      simp
  · simp

theorem heeds_of_ne {label : Label V} (hi : s.calls[i]? = some pc)
    (hpc : ∀ runner outcome, pc ≠ .settling runner outcome) (hreader : ∀ reader, pc ≠ .observing reader) :
    Heeds s (.step i label) := by
  refine ⟨fun runner outcome hi' => ?_, fun hi' => ?_⟩
  · exact absurd (Option.some.inj (hi.symm.trans hi')) (hpc runner outcome)
  · exact absurd (Option.some.inj (hi.symm.trans hi')) (hreader _)

theorem calls_of_set (hpc' : pc'.owns = false) {k : Nat} {pck : Pc V}
    (hk : (s.calls.set i pc')[k]? = some pck) (howns : pck.owns = true) : s.calls[k]? = some pck := by
  rcases getElem?_set_cases hk with ⟨-, rfl⟩ | ⟨-, hk⟩
  · grind
  · exact hk

theorem owner_of_set
    (halone : ∀ (k : Nat) (pck : Pc V), s.calls[k]? = some pck → pck.owns = true → k = i) {k : Nat}
    {pck : Pc V} (hk : (s.calls.set i pc')[k]? = some pck) (howns : pck.owns = true) :
    k = i ∧ pck = pc' := by
  rcases getElem?_set_cases hk with ⟨hki, hpck⟩ | ⟨hki, hk⟩
  · exact ⟨hki, hpck⟩
  · exact absurd (halone k pck hk howns) hki

theorem mem_cons_of_isBody {e e' : Entry V} {history : List (Entry V)} (he' : e'.isBody = false)
    (he : e.isBody = true) : e ∈ e' :: history ↔ e ∈ history := by
  refine ⟨fun hmem => (mem_cons.mp hmem).resolve_left ?_, mem_cons_of_mem _⟩
  rintro rfl
  grind

variable (h : Body errorValue s)
include h

theorem Body.running_iff :
    s.shared.state = .running ↔ ∀ state, .settle state ∉ s.shared.history := by
  rw [h.state_eq]
  exact current_running_iff h.written

/-- The owner is who it was, and nothing new is said of the body. -/
theorem Body.keep {s' : State (Shared V) (Pc V)}
    (hold : ∀ {k : Nat} {pck : Pc V}, s'.calls[k]? = some pck → pck.owns = true →
      s.calls[k]? = some pck)
    (hthunk : s'.shared.thunk = s.shared.thunk)
    (hbody : ∀ {e : Entry V}, e.isBody = true → (e ∈ s'.shared.history ↔ e ∈ s.shared.history))
    (hstarts : starts s'.shared.history = starts s.shared.history)
    (hstate : s'.shared.state = current s'.shared.history)
    (hwritten : ∀ state, .settle state ∈ s'.shared.history → state ≠ .running) :
    Body errorValue s' := by
  refine ⟨?_, ?_, ?_, ?_, ?_, ?_, hstate, hwritten⟩
  · grind
  · grind
  · intro hunstarted e he
    have hbefore : s.shared.thunk = true ∨ ∃ (k : Nat) (runner : Runner),
        s.calls[k]? = some (.launching runner) := by
      rcases hunstarted with hclaim | ⟨k, runner, hk⟩
      · exact .inl (hthunk ▸ hclaim)
      · exact .inr ⟨k, runner, hold hk rfl⟩
    grind
  · intro k runner hk
    obtain ⟨hstart, hproduce⟩ := h.running k runner (hold hk rfl)
    refine ⟨(hbody rfl).mpr hstart, ?_⟩
    intro j outcome hmem
    exact hproduce j outcome ((hbody rfl).mp hmem)
  · intro k runner outcome hk
    obtain ⟨produced, hrelay, hmem, hunique⟩ := h.settling k runner outcome (hold hk rfl)
    refine ⟨produced, hrelay, (hbody rfl).mpr hmem, ?_⟩
    intro j outcome' hj
    exact hunique j outcome' ((hbody rfl).mp hj)
  · grind

variable {runner : Runner} {state : FutureState V} {outcome : Except (EvalError V) V}

theorem Body.start (hunstarted : ∀ e ∈ s.shared.history, e.isBody = false)
    (halone : ∀ (k : Nat) (pck : Pc V), s.calls[k]? = some pck → pck.owns = true → k = i)
    (hthunk : shared'.thunk = false) (hhistory : shared'.history = .start i :: s.shared.history)
    (hstate : shared'.state = s.shared.state) :
    Body errorValue ⟨shared', s.calls.set i (.running runner)⟩ := by
  have howner := @owner_of_set _ s i (.running runner) halone
  refine ⟨?_, ?_, ?_, ?_, ?_, ?_, ?_, ?_⟩
  · grind
  · grind
  · rintro (hclaim | ⟨k, runner', hk⟩)
    · grind
    · cases (howner hk rfl).2
  · intro k runner' hk
    obtain ⟨rfl, -⟩ := howner hk rfl
    rw [hhistory]
    refine ⟨(.head _), ?_⟩
    intro j outcome hmem
    have hmem := (mem_cons.mp hmem).resolve_left nofun
    exact absurd (hunstarted _ hmem) nofun
  · grind
  · rw [hhistory, starts, countP_cons_of_pos rfl]
    exact Nat.succ_le_succ (Nat.le_of_eq (starts_eq_zero hunstarted))
  · rw [hstate, hhistory, h.state_eq]
    rfl
  · grind

theorem Body.produce
    (hi : s.calls[i]? = some (.running runner)) (outcome : Except (EvalError V) V) :
    Body errorValue ⟨s.shared.record (.produce i outcome),
      s.calls.set i (.settling runner (runner.relay errorValue outcome))⟩ := by
  obtain ⟨-, hnone⟩ := h.running i runner hi
  have howner := @owner_of_set _ s i (.settling runner (runner.relay errorValue outcome))
    fun k pck hk howns => h.one k i pck _ hk hi howns rfl
  refine ⟨?_, ?_, ?_, ?_, ?_, h.starts_le, h.state_eq, ?_⟩
  · grind
  · intro hclaim
    exact absurd (h.claimable hclaim i _ hi) nofun
  · rintro (hclaim | ⟨k, runner', hk⟩)
    · exact absurd (h.claimable hclaim i _ hi) nofun
    · cases (howner hk rfl).2
  · intro k runner' hk
    cases (howner hk rfl).2
  · intro k runner' outcome' hk
    obtain ⟨rfl, heq⟩ := howner hk rfl
    cases heq
    refine ⟨outcome, rfl, (.head _), ?_⟩
    intro j outcome' hj
    rcases mem_cons.mp hj with heq | hj
    all_goals grind
  · intro state hmem
    exact h.written state ((mem_cons.mp hmem).resolve_left nofun)

theorem Body.write (hpc' : pc'.owns = false)
    (hne : state ≠ .running) : Body errorValue ⟨s.shared.write state, s.calls.set i pc'⟩ := by
  refine h.keep (calls_of_set hpc') rfl (mem_cons_of_isBody rfl) rfl rfl ?_
  intro state' hmem
  rcases mem_cons.mp hmem with heq | hmem
  all_goals grind

theorem Body.skip (hpc' : pc'.owns = false) : Body errorValue ⟨s.shared, s.calls.set i pc'⟩ :=
  h.keep (calls_of_set hpc') rfl (fun _ => Iff.rfl) rfl h.state_eq h.written

theorem Body.observe (hpc' : pc'.owns = false) (reader : Reader) (reply : Reply V) :
    Body errorValue ⟨s.shared.record (.observe reader reply), s.calls.set i pc'⟩ := by
  refine h.keep (calls_of_set hpc') rfl (mem_cons_of_isBody rfl) rfl h.state_eq ?_
  intro state hmem
  exact h.written state ((mem_cons.mp hmem).resolve_left nofun)

theorem Body.legal_settle_iff (str : String → V)
    (hi : s.calls[i]? = some (.settling runner outcome)) (hne : state ≠ .cancelled) :
    Legal errorValue str s.shared.history (.settle state) ↔
      s.shared.state = .running ∧ state = settled errorValue outcome := by
  obtain ⟨produced, hrelay, hmem, hunique⟩ := h.settling i runner outcome hi
  have hsettled : settled errorValue outcome = settled errorValue produced := by
    rw [hrelay, settled_relay]
  rw [h.running_iff, hsettled]
  constructor
  · rintro ⟨hnone, hcancelled | ⟨j, outcome', hj, hstate⟩⟩
    all_goals grind
  · rintro ⟨hnone, hstate⟩
    exact ⟨hnone, .inr ⟨i, produced, hmem, hstate⟩⟩

theorem Body.record (str : String → V) (hi : s.calls[i]? = some (.settling runner outcome))
    (hne : state ≠ .running ∧ state ≠ .cancelled) :
    Body errorValue ⟨s.shared.write state, s.calls.set i runner.after⟩ ∧
      (SettlesOnce errorValue str (s.shared.write state).history ↔
        SettlesOnce errorValue str s.shared.history ∧
          s.shared.state = .running ∧ state = settled errorValue outcome) := by
  refine ⟨h.write (owns_after runner) hne.1, and_comm.trans (and_congr_right fun _ => ?_)⟩
  exact h.legal_settle_iff str hi hne.2

theorem Body.recordIfRunning (str : String → V) (hi : s.calls[i]? = some (.settling runner outcome))
    (hne : state ≠ .running ∧ state ≠ .cancelled) :
    Body errorValue ⟨s.shared.writeIfRunning state, s.calls.set i runner.after⟩ ∧
      (SettlesOnce errorValue str (s.shared.writeIfRunning state).history ↔
        SettlesOnce errorValue str s.shared.history ∧
          (s.shared.state = .running → state = settled errorValue outcome)) := by
  rcases writeIfRunning_cases s.shared state with ⟨hrunning, hwrite⟩ | ⟨hnot, hwrite⟩
  · obtain ⟨hbody, hiff⟩ := h.record str hi hne
    rw [hwrite]
    simpa [hrunning] using And.intro hbody hiff
  · rw [hwrite]
    exact ⟨h.skip (owns_after runner), (and_iff_left fun hrunning => absurd hrunning hnot).symm⟩

/-- A participant records the outcome of the body. -/
theorem Body.settle (str : String → V) (hi : s.calls[i]? = some (.settling runner outcome)) :
    Body errorValue ⟨s.shared.settle errorValue outcome runner, s.calls.set i runner.after⟩ ∧
      (SettlesOnce errorValue str (s.shared.settle errorValue outcome runner).history ↔
        SettlesOnce errorValue str s.shared.history ∧ Recordable s.shared.state outcome runner) := by
  have hsettled := settled_ne errorValue outcome
  cases runner with
  | task | compiled | call =>
    obtain ⟨hbody, hiff⟩ := h.record str hi hsettled
    exact ⟨hbody, hiff.trans (and_congr_right fun _ => and_iff_left rfl)⟩
  | sugar =>
    have hrecord := h.recordIfRunning str hi (stolenSugar_ne errorValue outcome)
    rw [stolenSugar_eq_iff] at hrecord
    exact hrecord
  | builtin =>
    obtain ⟨hbody, hiff⟩ := h.recordIfRunning str hi hsettled
    rw [← stolenBuiltin_eq] at hbody hiff
    exact ⟨hbody, hiff.trans (and_congr_right fun _ => iff_of_true (fun _ => rfl) trivial)⟩

theorem Body.legal_observe {reader : Reader} {reply : Reply V}
    (hanswers : Answers str reader s.shared.state reply) :
    Legal errorValue str s.shared.history (.observe reader reply) ↔
      (reader = .rtDeref → ∀ e, awaitValue s.shared.state ≠ some (.error e)) := by
  refine (and_iff_left ?_).trans hanswers.ne_boxed_none_iff
  by_cases hrunning : s.shared.state = .running
  · rw [hrunning] at hanswers
    exact .inr ⟨h.running_iff.mp hrunning, hanswers⟩
  · refine .inl ⟨s.shared.state, ?_, hanswers⟩
    rw [h.state_eq] at hrunning ⊢
    exact settle_mem_current hrunning

/-- **One step** keeps the body with its owner, and the history legal exactly when the outcome it
records can be recorded. -/
theorem Step.spec {label : Label V} (hi : s.calls[i]? = some pc)
    (hstep : Step errorValue str i s.shared pc shared' pc') :
    Body errorValue ⟨shared', s.calls.set i pc'⟩ ∧
      (SettlesOnce errorValue str shared'.history ↔ SettlesOnce errorValue str s.shared.history ∧
        Heeds s (.step i label)) := by
  have hsame : (∀ runner outcome, pc ≠ .settling runner outcome) → (∀ reader, pc ≠ .observing reader) →
      (SettlesOnce errorValue str s.shared.history ↔ SettlesOnce errorValue str s.shared.history ∧
        Heeds s (.step i label)) :=
    fun hpc hreader => (and_iff_left (heeds_of_ne hi hpc hreader)).symm
  have hlogs : (∀ runner outcome, pc ≠ .settling runner outcome) → (∀ reader, pc ≠ .observing reader) →
      ∀ {e : Entry V}, Legal errorValue str s.shared.history e →
      (SettlesOnce errorValue str (e :: s.shared.history) ↔ _) :=
    fun hpc hreader e hlegal => (and_iff_right hlegal).trans (hsame hpc hreader)
  cases hstep with
  | launch runner =>
    have hunstarted := h.unstarted (.inr ⟨i, runner, hi⟩)
    refine ⟨h.start hunstarted ?_ ?_ rfl rfl, hlogs nofun nofun ?_⟩
    · intro k pck hk howns
      exact h.one k i pck _ hk hi howns rfl
    · cases hthunk : s.shared.thunk with
      | false => exact hthunk
      | true => exact absurd (h.claimable hthunk i _ hi) nofun
    · intro j hj
      exact absurd (hunstarted _ hj) nofun
  | claim runner hthunk =>
    have hunstarted := h.unstarted (.inl hthunk)
    refine ⟨h.start hunstarted ?_ rfl rfl rfl, hlogs nofun nofun ?_⟩
    · grind
    · intro j hj
      exact absurd (hunstarted _ hj) nofun
  | skip runner => exact ⟨h.skip (owns_after runner), hsame nofun nofun⟩
  | pend =>
    have hset : s.calls.set i (.running .compiled) = s.calls := by
      obtain ⟨hlt, heq⟩ := List.getElem?_eq_some_iff.mp hi
      rw [← heq]
      exact List.set_getElem_self hlt
    rw [hset]
    exact ⟨h, hsame nofun nofun⟩
  | produce runner outcome => exact ⟨h.produce hi outcome, hlogs nofun nofun (h.running i runner hi).1⟩
  | settle =>
    obtain ⟨hbody, hiff⟩ := h.settle str hi
    simp only [Heeds]
    grind
  | cancel =>
    rcases writeIfRunning_cases s.shared .cancelled with ⟨hrunning, hwrite⟩ | ⟨-, hwrite⟩
    · rw [hwrite]
      exact ⟨h.write rfl nofun, hlogs nofun nofun ⟨h.running_iff.mp hrunning, .inl rfl⟩⟩
    · rw [hwrite]
      exact ⟨h.skip rfl, hsame nofun nofun⟩
  | observe reader reply hanswers =>
    refine ⟨h.observe rfl reader reply, and_comm.trans (and_congr_right fun _ => ?_)⟩
    rw [h.legal_observe hanswers]
    simp [Heeds, hi]

end Steps

/-! ## Runs -/

section Runs

variable {errorValue str : String → V} {s s' : State (Shared V) (Pc V)}

theorem Body.called (h : Body errorValue s) (op : Op) :
    Body errorValue ⟨s.shared, s.calls ++ [op.start]⟩ := by
  have hstart : (op.start : Pc V).owns = false := by cases op <;> rfl
  refine h.keep ?_ rfl (fun _ => Iff.rfl) rfl h.state_eq h.written
  intro k pck hk howns
  rcases getElem?_append_cases hk with ⟨-, rfl⟩ | hk
  · grind
  · exact hk

theorem step_spec {e : Event Op (Label V)} (h : Body errorValue s)
    (hstep : (machine errorValue str).step s e = some s') :
    Body errorValue s' ∧ (SettlesOnce errorValue str s'.shared.history ↔
      SettlesOnce errorValue str s.shared.history ∧ Heeds s e) := by
  rcases Machine.step_cases hstep with ⟨op, rfl, rfl⟩ | ⟨i, label, pc, shared', pc', rfl, hi, hnext, rfl⟩
  · exact ⟨h.called op, fun honce => ⟨honce, trivial⟩, fun honce => honce.1⟩
  · exact Step.spec h hi (next_step hnext)

theorem body_fresh (origin : Origin) : Body errorValue (fresh origin : State (Shared V) (Pc V)) := by
  have hnew : ∀ (thunk : Bool) (calls : List (Pc V)), calls.length ≤ 1 →
      (∀ pc ∈ calls, (thunk = true → pc.owns = false) ∧ (∀ runner, pc ≠ .running runner) ∧
        ∀ runner outcome, pc ≠ .settling runner outcome) →
      Body errorValue ⟨⟨.running, thunk, []⟩, calls⟩ := by
    intro thunk calls hlength hcalls
    have hnone : ∀ e : Entry V, e ∉ [] := fun _ => not_mem_nil
    refine ⟨?_, ?_, fun _ e he => (hnone e he).elim, ?_, ?_, Nat.zero_le 1, rfl, fun _ h => (hnone _ h).elim⟩
    · grind
    · grind
    · grind
    · grind
  cases origin with
  | spawned =>
    refine hnew false [.launching .task] (Nat.le_refl 1) ?_
    simp
  | compiled =>
    refine hnew false [.launching .compiled] (Nat.le_refl 1) ?_
    simp
  | called executor =>
    cases executor with
    | true =>
      refine hnew true [.claiming .call] (Nat.le_refl 1) ?_
      intro pc hpc
      rw [mem_singleton.mp hpc]
      exact ⟨fun _ => rfl, nofun, nofun⟩
    | false => exact hnew true [] (Nat.zero_le 1) nofun

/-- A `deref` steals the body of a `future-call` from the executor; the task finds nothing to do. -/
def stolen : List (Event Op (Label String)) :=
  [.call (.builtin false), .step 1 .tick, .step 0 .tick, .step 1 (.finish (.ok "seven")), .step 1 .tick,
    .step 1 .tick]

/-- A spawned future is cancelled while its body runs, and asked twice whether it is. -/
def cancelledAndDone : List (Event Op (Label String)) :=
  [.step 0 .tick, .call .cancel, .step 1 .tick, .call (.read .isCancelled), .step 2 .tick,
    .step 0 (.finish (.ok "late")), .step 0 .tick, .call (.read .isCancelled), .step 3 .tick]

/-- The body of a `future-call` runs out of gas in an `@`. -/
def stolenExhausted : List (Event Op (Label String)) :=
  [.call .sugar, .step 0 .tick, .step 0 (.finish (.error .gasExhausted)), .step 0 .tick, .step 0 .tick]

/-- A compiled `deref` of a spawned future whose body throws. -/
def failedDeref : List (Event Op (Label String)) :=
  [.step 0 .tick, .step 0 (.finish (.error (.thrown "boom"))), .step 0 .tick, .call (.read .rtDeref),
    .step 1 .tick]

end Runs

end Clojurust.Future
