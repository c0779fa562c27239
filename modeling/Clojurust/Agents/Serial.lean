import Clojurust.Agents.Basic

/-!
# Agents are serial

* `Allowed` — the steps that a serial mailbox allows; `Agent.box` — an agent as a mailbox,
  `next_replay` — a step that is allowed is one of the mailbox;
* `Moves`, `Drains` — there is at most one drainer, and it alone works on an action;
* `Heeds` — the condition on calls: `await-agent` finds no drainer and no failed agent, and the `await`
  without a case for agents an idle agent; `Calm` — what follows for drainers;
* `agent_serial` — the histories that are those of a serial mailbox.
-/

namespace Clojurust.Agents

open Interleaving Future Mailbox List

variable {V : Type}

/-- Nothing waits or is worked on, or the agent has failed. -/
def Agent.Settled (a : Agent V) : Prop := a.error.isSome = true ∨ (a.queue = [] ∧ a.busy = none)

/-- A serial mailbox allows the step. -/
def Allowed (a : Agent V) : Pc V → Prop
  | .draining _ => a.queue ≠ [] → a.error = none
  | .awaitingAgent => a.draining = true ∨ a.queue = [] → a.Settled
  | .awaitingElsewhere _ => a.Settled
  | _ => True

instance (a : Agent V) : Decidable a.Settled :=
  inferInstanceAs (Decidable (a.error.isSome = true ∨ (a.queue = [] ∧ a.busy = none)))

instance (a : Agent V) : DecidablePred (Allowed a)
  | .draining _ => decidable_of_iff (a.queue ≠ [] → a.error.isNone = true)
    (imp_congr_right fun _ => Option.isNone_iff_eq_none)
  | .awaitingAgent => inferInstanceAs (Decidable (a.draining = true ∨ a.queue = [] → a.Settled))
  | .awaitingElsewhere _ => inferInstanceAs (Decidable a.Settled)
  | .sending | .spawned | .running _ _ _ | .notifying _ _ _ _ _ | .watching _ _ _ _ _ | .awaiting
  | .restarting _ _ | .rewatching _ | .returned _ => isTrue trivial

/-- A serial mailbox allows the event. -/
def AllowedAll (s : State (Agent V) (Pc V)) : Event (Op V) (Label V) → Prop
  | .call _ => True
  | .step i _ => ∀ pc, s.calls[i]? = some pc → Allowed s.shared pc

instance (s : State (Agent V) (Pc V)) : DecidablePred (AllowedAll s)
  | .call _ => isTrue trivial
  | .step i _ => inferInstanceAs (Decidable (∀ pc, s.calls[i]? = some pc → Allowed s.shared pc))

/-! ## The drainer -/

/-- The call drains the mailbox. -/
def Pc.active : Pc V → Bool
  | .draining _ | .running _ _ _ | .notifying _ _ _ _ _ | .watching _ _ _ _ _ => true
  | _ => false

/-- The action that a drainer works on. -/
def Pc.action? : Pc V → Option Nat
  | .running _ action _ | .notifying _ action _ _ _ | .watching _ action _ _ _ => some action
  | _ => none

/-- What a step does to the drainers. -/
inductive Moves (a : Agent V) (pc : Pc V) (a' : Agent V) (pc' : Pc V) : Prop
  | bystander (hpc : pc.active = false) (hpc' : pc'.active = false) (hdraining : a'.draining = a.draining)
      (hspawned : a'.spawned = a.spawned) (hbusy : a'.busy = a.busy)
  | spawn (hpc' : pc'.active = false) (hfree : a.draining = false) (hdraining : a'.draining = true)
      (hspawned : a'.spawned = a.spawned + 1) (hbusy : a'.busy = a.busy)
  | claim (hnone : pc'.action? = none) (hfree : a.draining = false) (hdraining : a'.draining = true)
      (hspawned : a'.spawned = a.spawned) (hbusy : a'.busy = a.busy)
  | begin (hnone : pc'.action? = none) (hspawned : a.spawned = a'.spawned + 1)
      (hdraining : a'.draining = a.draining) (hbusy : a'.busy = a.busy)
  | work (hpc : pc.active = true) (hpc' : pc'.active = true) (hbusy : a'.busy = pc'.action?)
      (hspawned : a'.spawned = a.spawned) (hdraining : a'.draining = a.draining)
  | leave (hpc : pc.active = true) (hpc' : pc'.active = false) (hbusy : a'.busy = none)
      (hspawned : a'.spawned = a.spawned) (hdraining : a'.draining = false)

variable {pc : Pc V} {s : State (Agent V) (Pc V)}

theorem moves_schedule (a : Agent V) (async : Bool) (hpc : pc.active = false) {a0 : Agent V}
    (hdraining : a.draining = a0.draining) (hspawned : a.spawned = a0.spawned) (hbusy : a.busy = a0.busy) :
    Moves a0 pc (a.schedule async .agent).1 (a.schedule async .agent).2 := by
  unfold Agent.schedule
  split
  · exact .bystander hpc rfl hdraining hspawned hbusy
  · rename_i hfree
    have hfree0 : a0.draining = false := hdraining ▸ Bool.eq_false_iff.mpr hfree
    split
    · exact .spawn rfl hfree0 rfl (congrArg (· + 1) hspawned) hbusy
    · exact .claim rfl hfree0 rfl hspawned hbusy

theorem moves_leave (a : Agent V) (after : After) (hpc : pc.active = true) {a0 : Agent V}
    (hdraining : a.draining = false) (hspawned : a.spawned = a0.spawned) (hbusy : a.busy = none) :
    Moves a0 pc (a.leave after).1 (a.leave after).2 := by
  cases after <;> exact .leave hpc rfl hbusy hspawned hdraining

theorem next_moves {str : String → V} {async : Bool} {label : Label V} {a : Agent V}
    {result : Agent V × Pc V} (h : next str async label a pc = some result)
    (hbusy : pc.active = true → a.busy = pc.action?) : Moves a pc result.1 result.2 := by
  unfold next Agent.resume at h
  split at h <;> (try split at h) <;> (try split at h) <;> cases h
  all_goals first
    | exact .bystander rfl rfl rfl rfl rfl
    | exact moves_schedule _ _ rfl rfl rfl rfl
    | exact moves_leave _ _ rfl rfl rfl rfl
    | exact moves_leave _ _ rfl rfl rfl (hbusy rfl)
    | exact .work rfl rfl rfl rfl rfl
    | exact .work rfl rfl (hbusy rfl) rfl rfl
    | exact .begin rfl ‹_› rfl rfl
    | exact .claim rfl (by grind) rfl rfl rfl

/-- There is at most one drainer, while the flag is set. It alone works on an action. -/
@[grind cases]
structure Drains (s : State (Agent V) (Pc V)) : Prop where
  one : ∀ (i k : Nat) (pc pc' : Pc V), s.calls[i]? = some pc → s.calls[k]? = some pc' →
    pc.active = true → pc'.active = true → i = k
  flag : ∀ (i : Nat) (pc : Pc V), s.calls[i]? = some pc → pc.active = true →
    s.shared.draining = true ∧ s.shared.spawned = 0 ∧ s.shared.busy = pc.action?
  token : 0 < s.shared.spawned → s.shared.draining = true ∧ s.shared.spawned = 1
  free : (∀ (i : Nat) (pc : Pc V), s.calls[i]? = some pc → pc.active = false) → s.shared.busy = none

theorem Drains.new (state : V) : Drains ⟨.new state, []⟩ where
  one := by simp
  flag := by simp
  token h := absurd h (Nat.lt_irrefl 0)
  free _ := rfl

theorem Drains.inactive (h : Drains s)
    (hfree : s.shared.draining = false ∨ 0 < s.shared.spawned) (i : Nat) (pc : Pc V)
    (hi : s.calls[i]? = some pc) : pc.active = false := by
  by_contra hactive
  obtain ⟨hdraining, hspawned, -⟩ := h.flag i pc hi (eq_true_of_ne_false hactive)
  rcases hfree with hfree | hfree
  · cases hfree.symm.trans hdraining
  · exact absurd hspawned (Nat.ne_of_gt hfree)

theorem Drains.unspawned (h : Drains s) (hfree : s.shared.draining = false) : s.shared.spawned = 0 := by
  by_contra hne
  cases hfree.symm.trans (h.token (Nat.pos_of_ne_zero hne)).1

theorem Drains.alone {i : Nat} (h : Drains s) (hi : s.calls[i]? = some pc) (hpc : pc.active = true) (k : Nat)
    (d : Pc V) (hne : k ≠ i) (hk : s.calls[k]? = some d) : d.active = false := by
  by_contra hactive
  exact hne (h.one k i d pc hk hi (eq_true_of_ne_false hactive) hpc)

theorem Drains.keep {s' : State (Agent V) (Pc V)} (h : Drains s)
    (hactive : ∀ (k : Nat) (d : Pc V), d.active = true → (s'.calls[k]? = some d ↔ s.calls[k]? = some d))
    (hdraining : s'.shared.draining = s.shared.draining) (hspawned : s'.shared.spawned = s.shared.spawned)
    (hbusy : s'.shared.busy = s.shared.busy) : Drains s' := by
  refine ⟨?_, ?_, ?_, ?_⟩
  · intro k l d d' hk hl hd hd'
    exact h.one k l d d' ((hactive k d hd).mp hk) ((hactive l d' hd').mp hl) hd hd'
  · intro k d hk hd
    rw [hdraining, hspawned, hbusy]
    exact h.flag k d ((hactive k d hd).mp hk) hd
  · rw [hdraining, hspawned]
    exact h.token
  · intro hnone
    rw [hbusy]
    refine h.free fun k d hk => Bool.eq_false_iff.mpr fun hd => ?_
    cases hd.symm.trans (hnone k d ((hactive k d hd).mpr hk))

theorem active_set {calls : List (Pc V)} {i k : Nat} {pc' d : Pc V} (hk : (calls.set i pc')[k]? = some d)
    (hactive : d.active = true) :
    (k = i ∧ d = pc' ∧ pc'.active = true) ∨ (k ≠ i ∧ calls[k]? = some d) := by
  rcases getElem?_set_cases hk with ⟨rfl, rfl⟩ | hk
  · exact Or.inl ⟨rfl, rfl, hactive⟩
  · exact Or.inr hk

theorem Drains.move {i : Nat} {pc' : Pc V} {a' : Agent V} (h : Drains s)
    (hi : s.calls[i]? = some pc) (hmoves : Moves s.shared pc a' pc') :
    Drains ⟨a', s.calls.set i pc'⟩ := by
  have hself : (s.calls.set i pc')[i]? = some pc' := getElem?_set_of_some hi
  -- nobody else is active where the call becomes or is the drainer
  have hothers : (∀ (k : Nat) (d : Pc V), k ≠ i → s.calls[k]? = some d → d.active = false) →
      (pc'.active = true → a'.draining = true ∧ a'.spawned = 0 ∧ a'.busy = pc'.action?) →
      (a'.spawned = 0 ∨ a'.draining = true ∧ a'.spawned = 1) → (pc'.active = false → a'.busy = none) →
      Drains ⟨a', s.calls.set i pc'⟩ := by
    intro hinactive hflag htoken hfree
    have hmine : ∀ (k : Nat) (d : Pc V), (s.calls.set i pc')[k]? = some d → d.active = true →
        k = i ∧ d = pc' ∧ pc'.active = true := by
      intro k d hk hd
      rcases active_set hk hd with hmine | ⟨hne, hk⟩
      · exact hmine
      · cases hd.symm.trans (hinactive k d hne hk)
    refine ⟨?_, ?_, fun hpos => htoken.resolve_left (Nat.ne_of_gt hpos), ?_⟩
    · intro k l d d' hk hl hd hd'
      exact (hmine k d hk hd).1.trans (hmine l d' hl hd').1.symm
    · intro k d hk hd
      obtain ⟨-, rfl, hactive⟩ := hmine k d hk hd
      exact hflag hactive
    · intro hnone
      exact hfree (hnone i pc' hself)
  cases hmoves with
  | bystander hpc hpc' hdraining hspawned hbusy =>
    refine h.keep (fun k d hd => ?_) hdraining hspawned hbusy
    grind
  | spawn hpc' hfree hdraining hspawned hbusy =>
    have hinactive := h.inactive (Or.inl hfree)
    have hone : a'.spawned = 1 := hspawned.trans (congrArg (· + 1) (h.unspawned hfree))
    refine hothers (fun k d _ hk => hinactive k d hk) ?_ (.inr ⟨hdraining, hone⟩) ?_
    · intro hactive
      cases hpc'.symm.trans hactive
    · exact fun _ => hbusy.trans (h.free hinactive)
  | claim hnone hfree hdraining hspawned hbusy =>
    have hinactive := h.inactive (Or.inl hfree)
    have hzero : a'.spawned = 0 := hspawned.trans (h.unspawned hfree)
    have hidle : a'.busy = none := hbusy.trans (h.free hinactive)
    refine hothers (fun k d _ hk => hinactive k d hk) ?_ (.inl hzero) fun _ => hidle
    exact fun _ => ⟨hdraining, hzero, hidle.trans hnone.symm⟩
  | begin hnone hspawned hdraining hbusy =>
    have hpos : 0 < s.shared.spawned := hspawned ▸ Nat.succ_pos _
    have hinactive := h.inactive (Or.inr hpos)
    have hzero : a'.spawned = 0 := Nat.succ.inj (hspawned.symm.trans (h.token hpos).2)
    have hidle : a'.busy = none := hbusy.trans (h.free hinactive)
    refine hothers (fun k d _ hk => hinactive k d hk) ?_ (.inl hzero) fun _ => hidle
    exact fun _ => ⟨hdraining.trans (h.token hpos).1, hzero, hidle.trans hnone.symm⟩
  | work hpc hpc' hbusy hspawned hdraining =>
    obtain ⟨hflag, hzero, -⟩ := h.flag i pc hi hpc
    refine hothers (h.alone hi hpc) ?_ (.inl (hspawned.trans hzero)) ?_
    · exact fun _ => ⟨hdraining.trans hflag, hspawned.trans hzero, hbusy⟩
    · intro hinactive
      cases hinactive.symm.trans hpc'
  | leave hpc hpc' hbusy hspawned =>
    obtain ⟨-, hzero, -⟩ := h.flag i pc hi hpc
    refine hothers (h.alone hi hpc) ?_ (.inl (hspawned.trans hzero)) fun _ => hbusy
    intro hactive
    cases hpc'.symm.trans hactive

/-! ## The mailbox -/

/-- An agent as a mailbox. -/
def Agent.box (a : Agent V) : Box Nat V := ⟨a.state, a.error.isSome, a.queue, a.busy⟩

/-- The history of an agent, if it is one of a mailbox, leads to the agent. -/
def Shown (init : V) (a : Agent V) : Prop := ∀ b, Replay init a.history b → b = a.box

section Replay

variable {init : V} {a a' : Agent V}

theorem Shown.record {action : Action Nat V} {guard : Prop} (h : Shown init a)
    (hhistory : a'.history = action :: a.history)
    (hstep : Replay init a.history a.box → ∀ b, a.box.Step b action ↔ guard ∧ b = a'.box) :
    Shown init a' ∧ (Serial init a'.history ↔ Serial init a.history ∧ guard) := by
  rw [Shown, Serial, hhistory]
  refine ⟨?_, ?_, ?_⟩
  · rintro b ⟨p, hp, hpb⟩
    cases h p hp
    exact ((hstep hp b).mp hpb).2
  · rintro ⟨b, p, hp, hpb⟩
    cases h p hp
    exact ⟨⟨_, hp⟩, ((hstep hp b).mp hpb).1⟩
  · rintro ⟨⟨p, hp⟩, hguard⟩
    cases h p hp
    exact ⟨a'.box, a.box, hp, (hstep hp a'.box).mpr ⟨hguard, rfl⟩⟩

theorem Shown.silent {guard : Prop} (h : Shown init a) (hhistory : a'.history = a.history)
    (hbox : a'.box = a.box) (hguard : guard) :
    Shown init a' ∧ (Serial init a'.history ↔ Serial init a.history ∧ guard) := by
  rw [Shown, hhistory, hbox]
  exact ⟨h, (and_iff_left hguard).symm⟩

theorem schedule_fst (a : Agent V) (async : Bool) (after : After) :
    (a.schedule async after).1.history = a.history ∧ (a.schedule async after).1.box = a.box ∧
      (a.schedule async after).1.sent = a.sent := by
  unfold Agent.schedule
  split
  · exact ⟨rfl, rfl, rfl⟩
  · split <;> exact ⟨rfl, rfl, rfl⟩

theorem resume_fst (a : Agent V) (async : Bool) :
    (a.resume async).1.history = a.history ∧ (a.resume async).1.box = a.box ∧
      (a.resume async).1.sent = a.sent := by
  unfold Agent.resume
  split
  · exact ⟨rfl, rfl, rfl⟩
  · exact schedule_fst a async .agent

theorem Shown.leave (h : Shown init a) (after : After) (hsettled : a.Settled) :
    Shown init (a.leave after).1 ∧ (Serial init (a.leave after).1.history ↔ Serial init a.history) := by
  have hrelease : Shown init (a.record .release) ∧
      (Serial init (a.record .release).history ↔ Serial init a.history ∧ True) := by
    refine h.record rfl fun _ b => ?_
    exact and_congr_left fun _ => iff_of_true hsettled trivial
  cases after with
  | release => exact ⟨hrelease.1, hrelease.2.trans (and_iff_left trivial)⟩
  | _ => exact ⟨h, Iff.rfl⟩

variable {str : String → V}

theorem Shown.fail {action : Nat} {e : EvalError V} {after : After} (h : Shown init a)
    (hbusy : a.busy = some action) :
    Shown init ((a.fail str action e).leave after).1 ∧
      (Serial init ((a.fail str action e).leave after).1.history ↔ Serial init a.history ∧ True) := by
  have hfail : Shown init (a.fail str action e) ∧
      (Serial init (a.fail str action e).history ↔ Serial init a.history ∧ True) := by
    refine h.record rfl fun _ b => ?_
    exact and_congr_left fun _ => iff_of_true hbusy trivial
  obtain ⟨hshown, hiff⟩ := hfail.1.leave after (.inl rfl)
  exact ⟨hshown, hiff.trans hfail.2⟩

/-- A step of a call is a step of the mailbox exactly if that allows it. -/
theorem next_replay {async : Bool} {label : Label V}
    {result : Agent V × Pc V} (h : next str async label a pc = some result)
    (hbusy : pc.active = true → a.busy = pc.action?) (hidle : a.draining = false → a.busy = none)
    (hshown : Shown init a) :
    Shown init result.1 ∧ (Serial init result.1.history ↔ Serial init a.history ∧ Allowed a pc) := by
  unfold next at h
  split at h <;> (try split at h) <;> cases h
  -- most steps are silent, or work on the action of the drainer
  all_goals first
    | exact hshown.silent rfl rfl trivial
    | exact hshown.fail (hbusy rfl)
    | exact hshown.record rfl fun _ b => and_congr_left fun _ => iff_of_true (hbusy rfl) trivial
    | exact hshown.record rfl fun _ b => Iff.rfl
    | skip
  case h_1.isFalse hopen =>
    obtain ⟨hhistory, hbox, -⟩ := schedule_fst a.push async .agent
    refine hshown.record hhistory fun _ b => ?_
    rw [hbox]
    exact and_congr_left fun _ => iff_of_true (Bool.eq_false_iff.mpr hopen) trivial
  case h_1.refl hqueue =>
    have hdone : Shown init { a with draining := false } := hshown
    obtain ⟨hleft, hiff⟩ := hdone.leave _ (.inr ⟨hqueue, hbusy rfl⟩)
    exact ⟨hleft, hiff.trans (and_iff_left fun hne => absurd hqueue hne).symm⟩
  case h_2.refl action queue hqueue =>
    refine hshown.record rfl fun _ b => ⟨?_, ?_⟩
    · rintro ⟨hopen, -, -, hwaiting, hb⟩
      refine ⟨fun _ => Option.isSome_eq_false_iff.mp hopen |> Option.isNone_iff_eq_none.mp, ?_⟩
      have hrest : b.waiting = queue := (cons.inj (hwaiting.symm.trans hqueue)).2
      rw [hb, hrest]
      rfl
    · rintro ⟨hallowed, rfl⟩
      have hopen : a.error = none := hallowed (hqueue ▸ cons_ne_nil _ _)
      exact ⟨congrArg Option.isSome hopen, hbusy rfl, rfl, hqueue, rfl⟩
  case h_10.isTrue hready =>
    refine hshown.record rfl fun _ b => and_congr_left fun _ => iff_of_true ?_ trivial
    rcases Bool.or_eq_true_iff.mp hready with hidleAgent | hfailed
    · obtain ⟨hfree, hempty⟩ := Bool.and_eq_true_iff.mp hidleAgent
      exact .inr ⟨isEmpty_iff.mp hempty, hidle (Bool.not_eq_eq_eq_not.mp hfree)⟩
    · exact .inl hfailed
  case h_12.isTrue hstuck =>
    refine hshown.silent rfl rfl ?_
    rintro (hdraining | hempty)
    all_goals grind
  case h_12.isFalse hready =>
    refine hshown.record rfl fun _ b => and_congr_left fun _ => ?_
    have hasked : a.draining = true ∨ a.queue = [] := by grind
    exact ⟨fun hsettled _ => hsettled, fun hallowed => hallowed hasked⟩
  case h_13.isFalse =>
    have hsome : a.error.isSome = true := by cases herror : a.error <;> simp_all
    obtain ⟨hhistory, hbox, -⟩ := resume_fst (a.restart _ _) async
    refine hshown.record hhistory fun hreplay b => ?_
    rw [hbox]
    exact ⟨fun hstep => ⟨trivial, hstep.2.2⟩, fun hguard => ⟨hsome, hreplay.idle hsome, hguard.2⟩⟩

end Replay

/-! ## Runs -/

section Runs

variable {str : String → V} {async : Bool} {init : V}

variable {s : State (Agent V) (Pc V)}

theorem Drains.step {s' : State (Agent V) (Pc V)} {e : Event (Op V) (Label V)} (h : Drains s)
    (hshown : Shown init s.shared) (hstep : (machine str async).step s e = some s') :
    (Drains s' ∧ Shown init s'.shared) ∧
      (Serial init s'.shared.history ↔ Serial init s.shared.history ∧ AllowedAll s e) := by
  obtain ⟨op, rfl, rfl⟩ | ⟨i, label, pc, a', pc', rfl, hi, hmove, rfl⟩ := Machine.step_cases hstep
  · refine ⟨⟨?_, hshown⟩, (and_iff_left trivial).symm⟩
    -- a new call drains nothing
    have hstart : ((machine str async).start op).active = false := by cases op <;> rfl
    refine h.keep (fun k d hd => ?_) rfl rfl rfl
    grind
  · have hbusy : pc.active = true → s.shared.busy = pc.action? := fun hactive => (h.flag i pc hi hactive).2.2
    have hidle : s.shared.draining = false → s.shared.busy = none := fun hfree => h.free (h.inactive (.inl hfree))
    obtain ⟨hshown', hiff⟩ := next_replay hmove hbusy hidle hshown
    exact ⟨⟨h.move hi (next_moves hmove hbusy), hshown'⟩,
      hiff.trans (and_congr_right fun _ => (forall_at_iff hi).symm)⟩

theorem next_accepted {label : Label V} {a : Agent V} {result : Agent V × Pc V}
    (h : next str async label a pc = some result) (ha : accepted a.history = range a.sent) :
    accepted result.1.history = range result.1.sent := by
  have hleave : ∀ (a : Agent V) (after : After), accepted a.history = range a.sent →
      accepted (a.leave after).1.history = range (a.leave after).1.sent := by
    intro a after ha
    cases after <;> exact ha
  unfold next at h
  split at h <;> (try split at h) <;> cases h
  all_goals first
    | exact ha
    | exact hleave _ _ ha
    | skip
  case h_1.isFalse =>
    rw [(schedule_fst ..).1, (schedule_fst ..).2.2]
    exact (congrArg (· ++ [a.sent]) ha).trans range_succ.symm
  case h_13.isFalse =>
    rw [(resume_fst ..).1, (resume_fst ..).2.2]
    exact ha

theorem serial_iff_meets (str : String → V) (async : Bool) (init : V)
    (es : List (Event (Op V) (Label V)))
    (hrun : (machine str async).run ⟨.new init, []⟩ es = some s) :
    Serial init s.shared.history ↔ (machine str async).Meets AllowedAll ⟨.new init, []⟩ es := by
  have hnew : Shown init (.new init) := fun b hb => hb
  have hiff := (Machine.run_iff_meets (I := fun s => Drains s ∧ Shown init s.shared)
    (G := fun s => Serial init s.shared.history) (fun _ _ _ hs => hs.1.step hs.2) ⟨.new init, hnew⟩ hrun).2
  exact hiff.trans (and_iff_right ⟨_, rfl⟩)

/-! ### Calls -/

/-- The condition on a call: no drainer is at work when `await-agent` looks at the agent, nor has the
agent failed with actions in its queue; and the agent is idle when an `await` without a case for agents
does. Nothing is asked of the other calls. -/
def heeds (a : Agent V) : Pc V → Bool
  | .awaitingAgent => !a.draining && (a.queue.isEmpty || a.error.isNone)
  | .awaitingElsewhere _ => a.isIdle
  | _ => true

/-- The condition on an event. -/
def HeedsAll (s : State (Agent V) (Pc V)) : Event (Op V) (Label V) → Prop
  | .call _ => True
  | .step i _ => ∀ pc, s.calls[i]? = some pc → heeds s.shared pc = true

instance (s : State (Agent V) (Pc V)) : DecidablePred (HeedsAll s)
  | .call _ => isTrue trivial
  | .step i _ => inferInstanceAs (Decidable (∀ pc, s.calls[i]? = some pc → heeds s.shared pc = true))

/-- An agent with a drainer has not failed. -/
def Agent.Calm (a : Agent V) : Prop := a.draining = true → a.error = none

theorem calm_schedule {a : Agent V} (herror : a.error = none) (async : Bool) (after : After) :
    (a.schedule async after).1.Calm := by
  unfold Agent.schedule
  split
  · exact fun _ => herror
  · split <;> exact fun _ => herror

theorem calm_leave {a : Agent V} (hdraining : a.draining = false) (after : After) :
    (a.leave after).1.Calm := by
  cases after <;> exact fun h => absurd (hdraining.symm.trans h) Bool.noConfusion

/-- Only `await-agent` could drain an agent that has failed. -/
theorem Agent.Calm.next {label : Label V} {a : Agent V} {result : Agent V × Pc V} (h : a.Calm)
    (hheeds : heeds a pc = true) (hnext : next str async label a pc = some result) : result.1.Calm := by
  unfold Agents.next Agent.resume at hnext
  split at hnext <;> (try split at hnext) <;> (try split at hnext) <;> cases hnext
  all_goals first
    | exact h
    | exact calm_leave rfl _
    | exact calm_schedule rfl _ _
    | exact fun _ => rfl
    | skip
  case h_1.isFalse hopen =>
    refine calm_schedule ?_ _ _
    exact Option.isNone_iff_eq_none.mp (Option.isSome_eq_false_iff.mp (Bool.eq_false_iff.mpr hopen))
  case h_12.isTrue hstuck =>
    intro _
    rw [heeds, Bool.and_eq_true_iff, Bool.or_eq_true_iff] at hheeds
    have hwaiting := (Bool.and_eq_true_iff.mp hstuck).2
    refine Option.isNone_iff_eq_none.mp (hheeds.2.resolve_left fun hempty => ?_)
    rw [hempty] at hwaiting
    cases hwaiting

theorem next_heeds {label : Label V} {a : Agent V} {result : Agent V × Pc V}
    (h : next str async label a pc = some result) (b : Agent V) : heeds b result.2 = true := by
  have hschedule : ∀ (a : Agent V) (after : After), heeds b (a.schedule async after).2 = true := by
    intro a after
    unfold Agent.schedule
    split
    · rfl
    · split <;> rfl
  have hleave : ∀ (a : Agent V) (after : After), heeds b (a.leave after).2 = true := by
    intro a after
    cases after <;> rfl
  unfold next Agent.resume at h
  split at h <;> (try split at h) <;> (try split at h) <;> cases h
  all_goals first
    | rfl
    | exact hschedule _ _
    | exact hleave _ _

/-- A call that meets the condition is one that the mailbox allows. -/
theorem Drains.allowed (h : Drains s) (hcalm : s.shared.Calm) {i : Nat} (hi : s.calls[i]? = some pc)
    (hheeds : heeds s.shared pc = true) : Allowed s.shared pc := by
  have hidle : s.shared.draining = false → s.shared.busy = none :=
    fun hfree => h.free (h.inactive (.inl hfree))
  cases pc with
  | draining => exact fun _ => hcalm (h.flag i _ hi rfl).1
  | awaitingAgent =>
    have hfree := Bool.not_eq_true' _ ▸ (Bool.and_eq_true_iff.mp hheeds).1
    rintro (hdraining | hempty)
    · cases hfree.symm.trans hdraining
    · exact .inr ⟨hempty, hidle hfree⟩
  | awaitingElsewhere =>
    obtain ⟨hfree, hempty⟩ := Bool.and_eq_true_iff.mp hheeds
    exact .inr ⟨isEmpty_iff.mp hempty, hidle (Bool.not_eq_true' _ ▸ hfree)⟩
  | _ => trivial

theorem serial_of_meets {es : List (Event (Op V) (Label V))}
    (hmeets : (machine str async).Meets HeedsAll ⟨.new init, []⟩ es)
    (hrun : (machine str async).run ⟨.new init, []⟩ es = some s) : Serial init s.shared.history := by
  have hnew : Shown init (.new init) := fun b hb => hb
  refine (Machine.run_invariant_of_meets (I := fun s => (Drains s ∧ Shown init s.shared) ∧
    s.shared.Calm ∧ Serial init s.shared.history) ?_ ⟨⟨.new init, hnew⟩, nofun, ⟨_, rfl⟩⟩ hmeets hrun).2.2
  rintro s1 e s2 ⟨⟨hdrains, hshown⟩, hcalm, hserial⟩ hheeds hstep
  obtain ⟨hnext, hiff⟩ := hdrains.step hshown hstep
  obtain ⟨op, rfl, rfl⟩ | ⟨i, label, pc, a', pc', rfl, hi, hmove, rfl⟩ := Machine.step_cases hstep
  · exact ⟨hnext, hcalm, hserial⟩
  · refine ⟨hnext, hcalm.next (hheeds pc hi) hmove, hiff.mpr ⟨hserial, fun pc1 hpc1 => ?_⟩⟩
    exact hdrains.allowed hcalm hpc1 (hheeds pc1 hpc1)

/-- The calls that nothing is asked of. -/
def Op.simple : Op V → Bool
  | .awaitAgent | .awaitElsewhere _ => false
  | _ => true

theorem meets_of_simple {es : List (Event (Op V) (Label V))} (h : ∀ op, .call op ∈ es → op.simple = true) :
    (machine str async).Meets HeedsAll ⟨.new init, []⟩ es := by
  have hsimple : ∀ e ∈ es, ∀ op, e = .call op → op.simple = true := by
    rintro e he op rfl
    exact h op he
  refine Machine.meets_of_invariant (I := Each fun _ _ pc => ∀ a : Agent V, heeds a pc = true) ?_ ?_
    nofun hsimple
  · intro s e hs
    cases e with
    | call op => trivial
    | step i => exact fun pc hpc => hs i pc hpc s.shared
  · intro s e s' hs hcall hstep
    refine hs.step hstep ?_ (fun _ hmove _ => next_heeds hmove) fun _ _ _ _ => id
    rintro op rfl a
    have hop := hcall op rfl
    cases op with
    | awaitAgent | awaitElsewhere => cases hop
    | _ => rfl

end Runs

/-- Two actions, drained by a task of the runtime, and an `await` that goes on at the end. -/
def drained : List (Event (Op Nat) (Label Nat)) :=
  [.call .send, .step 0 .go, .call .send, .step 1 .go, .call .drain, .call .await, .step 2 .go, .step 2 .go,
    .step 2 (.answer (.ok 5)), .step 2 .go, .step 2 .go, .step 2 (.answer (.ok 15)), .step 2 .go, .step 2 .go,
    .step 3 .go]

/-- Two actions, the first of which fails, and an `await-agent`. -/
def failedDrain : List (Event (Op Nat) (Label Nat)) :=
  [.call .send, .step 0 .go, .call .send, .step 1 .go, .call .drain, .step 2 .go, .step 2 .go,
    .step 2 (.answer (.error (.other "boom"))), .call .awaitAgent, .step 3 .go, .step 3 .go,
    .step 3 (.answer (.ok 7))]

/-- An action is sent, and waited for. -/
def early (op : Op Nat) : List (Event (Op Nat) (Label Nat)) :=
  [.call .send, .step 0 .go, .call op, .step 1 .go]

end Clojurust.Agents
