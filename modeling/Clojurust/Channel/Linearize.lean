import Clojurust.Channel.Basic

/-!
# Channels linearize to a bounded queue

Every action takes effect in one step of its call. A put takes effect when its value enters the
queue, unless the value is withdrawn later, and then when it is withdrawn.

* `lin` — the actions of a log that count: a put that was withdrawn does not;
* `Effect`, `next_effect` — what a step does to the queue and to its call;
* `Inv`, `run_inv` — the queue is the replay of the log, and every call stands as its actions say;
* `channel_linearizable` — the linearization of every run.
-/

namespace Clojurust.Channel

open Interleaving BoundedFifo List

variable {V : Type}

/-! ## Logs -/

section Logs

def isPut : Action V → Bool
  | .put _ => true
  | _ => false

def isWithdraw : Action V → Bool
  | .withdraw => true
  | _ => false

/-- The actions of one call. -/
def entriesOf (i : Nat) (log : List (Nat × Action V)) : List (Nat × Action V) :=
  log.filter fun e => e.1 == i

/-- A call has withdrawn its value. -/
def withdrawn (log : List (Nat × Action V)) (i : Nat) : Bool :=
  log.any fun e => e.1 == i && isWithdraw e.2

/-- The log without the put of one call. -/
def dropPut (i : Nat) (log : List (Nat × Action V)) : List (Nat × Action V) :=
  log.filter fun e => !(e.1 == i && isPut e.2)

def counts (log : List (Nat × Action V)) (e : Nat × Action V) : Bool :=
  !(isPut e.2 && withdrawn log e.1)

/-- The actions that count. -/
def lin (log : List (Nat × Action V)) : List (Nat × Action V) := log.filter (counts log)

variable {log : List (Nat × Action V)} {i j : Nat} {action : Action V}

theorem entriesOf_cons_self : entriesOf i ((i, action) :: log) = (i, action) :: entriesOf i log :=
  filter_cons_of_pos (beq_self_eq_true i)

theorem mem_entriesOf {e : Nat × Action V} : e ∈ entriesOf i log ↔ e ∈ log ∧ e.1 = i := by
  simp [entriesOf]

theorem withdrawn_eq : withdrawn log i = (entriesOf i log).any fun e => isWithdraw e.2 := by
  rw [withdrawn, entriesOf, any_filter]

theorem lin_cons (hwithdraw : isWithdraw action = false)
    (hput : isPut action = true → withdrawn log i = false) :
    lin ((i, action) :: log) = (i, action) :: lin log := by
  have hsame : ∀ j, withdrawn ((i, action) :: log) j = withdrawn log j := by
    intro j
    simp [withdrawn, hwithdraw]
  have hcounts : counts ((i, action) :: log) = counts log := by
    funext e
    simp only [counts, hsame]
  rw [lin, hcounts, filter_cons_of_pos]
  · rfl
  · cases hisPut : isPut action with
    | false => simp [counts, hisPut]
    | true => simp [counts, hisPut, hput hisPut]

theorem lin_withdraw : lin ((i, .withdraw) :: log) = (i, .withdraw) :: dropPut i (lin log) := by
  have hwithdrawn : ∀ j, withdrawn ((i, Action.withdraw) :: log) j = (i == j || withdrawn log j) := by
    intro j
    simp [withdrawn, isWithdraw]
  rw [lin, filter_cons_of_pos (by rfl)]
  congr 1
  rw [dropPut, lin, filter_filter]
  refine filter_congr ?_
  simp only [counts, hwithdrawn, Bool.beq_comm (a := i)]
  grind

theorem dropPut_cons (h : i ≠ j ∨ isPut action = false) :
    dropPut j ((i, action) :: log) = (i, action) :: dropPut j log := by
  refine filter_cons_of_pos ?_
  grind

theorem dropPut_put (v : V) : dropPut i ((i, .put v) :: log) = dropPut i log :=
  filter_cons_of_neg (by simp [isPut])

theorem dropPut_eq_self (h : entriesOf i log = []) : dropPut i (lin log) = lin log := by
  refine filter_eq_self.mpr ?_
  intro e he
  have hne : e.1 ≠ i := by
    intro hei
    have hmem : e ∈ entriesOf i log := mem_entriesOf.mpr ⟨mem_of_mem_filter he, hei⟩
    rw [h] at hmem
    cases hmem
  simp [hne]

end Logs

/-! ## What a step does -/

section

variable (nil : V) (i : Nat) (st : ChannelState V)

/-- What a step of call `i` does to its loop and to the state under the lock. -/
inductive Effect : Pc V → Pc V → ChannelState V → Prop where
  | idle (pc : Pc V) : Effect pc pc st
  | pushBuffered {pc : Pc V} {v : V} (hpc : pc = .putting v ∨ pc = .puttingBlocking v ∨ pc = .offering v)
      (hopen : st.closed = false) (hcapacity : st.capacity ≠ 0)
      (hroom : st.queue.length < st.capacity) :
      Effect pc (.returned (.accepted true)) (st.push i v)
  | pushSlot {pc pc' : Pc V} {v : V}
      (hpc : pc = .putting v ∧ pc' = .pending st.counter ∨
        pc = .puttingBlocking v ∧ pc' = .pendingBlocking st.counter)
      (hopen : st.closed = false) (hcapacity : st.capacity = 0) (hslot : st.queue = []) :
      Effect pc pc' (st.push i v)
  | pop {pc : Pc V} {o : Nat} {v : V} {rest : List (Nat × V)}
      (hpc : pc = .taking ∨ pc = .takingBlocking ∨ pc = .polling)
      (hqueue : st.queue = (o, v) :: rest) :
      Effect pc (.returned (.value v)) (st.pop i v rest)
  | takeClosed {pc : Pc V} (hpc : pc = .taking ∨ pc = .takingBlocking) (hclosed : st.closed = true)
      (hqueue : st.queue = []) :
      Effect pc (.returned (.value nil)) (st.record i .takeClosed)
  | miss (hqueue : st.queue = []) :
      Effect .polling (.returned (.value nil)) (st.record i .miss)
  | refuse {pc : Pc V} {v : V} (hpc : pc = .putting v ∨ pc = .puttingBlocking v)
      (hclosed : st.closed = true) :
      Effect pc (.returned (.accepted false)) (st.record i .refuse)
  | decline {v : V} :
      Effect (.offering v) (.returned (.accepted false)) (st.record i .decline)
  | handed {pc : Pc V} {token : Nat} (hpc : pc = .pending token ∨ pc = .pendingBlocking token)
      (htoken : st.counter ≠ token) : Effect pc (.returned (.accepted true)) st
  | withdraw {pc : Pc V} {token : Nat} (hpc : pc = .pending token ∨ pc = .pendingBlocking token)
      (htoken : st.counter = token) (hclosed : st.closed = true) :
      Effect pc (.returned (.accepted false)) (st.withdraw i)
  | close : Effect .closing (.returned .unit) (st.close i)

end

section Effects

variable {nil : V} {i : Nat} {st st' : ChannelState V} {pc pc' : Pc V}

theorem Effect.taken_le (h : Effect nil i st pc pc' st') : st.taken ≤ st'.taken := by
  cases h with
  | pop => exact Nat.le_succ _
  | _ => exact Nat.le_refl _

theorem Effect.log_cases (h : Effect nil i st pc pc' st') :
    (st'.log = st.log ∧ ∀ r, pc = .returned r → pc' = .returned r) ∨
      ∃ action, st'.log = (i, action) :: st.log ∧ ∀ r, pc ≠ .returned r := by
  cases h with
  | idle => exact .inl ⟨rfl, fun _ h => h⟩
  | pushBuffered | pushSlot | pop => exact .inr ⟨_, rfl, by grind⟩
  | takeClosed hpc | withdraw hpc | refuse hpc =>
    exact .inr ⟨_, rfl, by rcases hpc with rfl | rfl <;> exact nofun⟩
  | miss | close | decline => exact .inr ⟨_, rfl, nofun⟩
  | handed => grind

end Effects

section Rounds

variable (nil : V) (i : Nat) (st : ChannelState V)

theorem pollRound_effect :
    Effect nil i st .polling (pollRound nil i st).2.core (pollRound nil i st).1 := by
  unfold pollRound
  split
  · rename_i o v rest hqueue
    exact .pop (.inr (.inr rfl)) hqueue
  · rename_i hqueue
    exact .miss hqueue

-- The two puts decide alike: they differ only in how they wait.
theorem putRound_effect (v : V) :
    Effect nil i st (.putting v) (putRound i st v).2.core (putRound i st v).1 ∧
      Effect nil i st (.puttingBlocking v) (putBlockingRound i st v).2.core
        (putBlockingRound i st v).1 := by
  unfold putRound putBlockingRound
  split
  · rename_i hclosed
    exact ⟨.refuse (.inl rfl) hclosed, .refuse (.inr rfl) hclosed⟩
  · rename_i hopen
    have hopen := Bool.eq_false_iff.mpr hopen
    split
    · rename_i hcapacity
      split
      · rename_i hslot
        exact ⟨.pushSlot (.inl ⟨rfl, rfl⟩) hopen hcapacity hslot,
          .pushSlot (.inr ⟨rfl, rfl⟩) hopen hcapacity hslot⟩
      · exact ⟨.idle _, .idle _⟩
    · rename_i hcapacity
      split
      · rename_i hroom
        exact ⟨.pushBuffered (.inl rfl) hopen hcapacity hroom,
          .pushBuffered (.inr (.inl rfl)) hopen hcapacity hroom⟩
      · exact ⟨.idle _, .idle _⟩

theorem pendingRound_effect (token : Nat) :
    Effect nil i st (.pending token) (pendingRound i st token).2.core (pendingRound i st token).1 ∧
      Effect nil i st (.pendingBlocking token) (pendingBlockingRound i st token).2.core
        (pendingBlockingRound i st token).1 := by
  unfold pendingRound pendingBlockingRound
  split
  · rename_i htoken
    exact ⟨.handed (.inl rfl) htoken, .handed (.inr rfl) htoken⟩
  · rename_i htoken
    have htoken := Decidable.not_not.mp htoken
    split
    · rename_i hclosed
      exact ⟨.withdraw (.inl rfl) htoken hclosed, .withdraw (.inr rfl) htoken hclosed⟩
    · exact ⟨.idle _, .idle _⟩

theorem offerRound_effect (v : V) :
    Effect nil i st (.offering v) (offerRound i st v).2.core (offerRound i st v).1 := by
  unfold offerRound
  split
  · exact .decline
  · rename_i h
    obtain ⟨hcapacity, hopen, hroom⟩ : st.capacity ≠ 0 ∧ ¬ st.closed = true ∧
        ¬ st.capacity ≤ st.queue.length := by simpa only [not_or] using h
    exact .pushBuffered (.inr (.inr rfl)) (Bool.eq_false_iff.mpr hopen) hcapacity
      (Nat.lt_of_not_le hroom)

variable [DecidableEq V]

theorem takeRound_effect :
    Effect nil i st .taking (takeRound nil i st).2.core (takeRound nil i st).1 ∧
      Effect nil i st .takingBlocking (takeBlockingRound nil i st).2.core
        (takeBlockingRound nil i st).1 := by
  unfold takeRound takeBlockingRound
  split
  · rename_i o v rest hqueue
    refine ⟨?_, .pop (.inr (.inl rfl)) hqueue⟩
    split
    · exact .pop (.inl rfl) hqueue
    · exact .pop (.inl rfl) hqueue
  · rename_i hqueue
    split
    · rename_i hclosed
      exact ⟨.takeClosed (.inl rfl) hclosed hqueue, .takeClosed (.inr rfl) hclosed hqueue⟩
    · exact ⟨.idle _, .idle _⟩

/-- **A step of a call** is one of the effects. -/
theorem next_effect {c c' : Chan V} {pc pc' : Pc V} (h : next nil i c pc = some (c', pc')) :
    Effect nil i c.state pc.core pc'.core c'.state := by
  have hnotify : ∀ (n : Notify) (side : Side), (c.setNotify n side).state = c.state := by
    intro n side
    cases side <;> rfl
  cases pc with
  | taking => cases h; exact (takeRound_effect nil i c.state).1
  | putting v => cases h; exact (putRound_effect nil i c.state v).1
  | pending token => cases h; exact (pendingRound_effect nil i c.state token).1
  | takingBlocking => cases h; exact (takeRound_effect nil i c.state).2
  | puttingBlocking v => cases h; exact (putRound_effect nil i c.state v).2
  | pendingBlocking token => cases h; exact (pendingRound_effect nil i c.state token).2
  | polling => cases h; exact pollRound_effect nil i c.state
  | offering v => cases h; exact offerRound_effect nil i c.state v
  | closing => cases h; exact .close
  | waking =>
    cases h
    rw [hnotify]
    exact .idle _
  | awaiting =>
    simp only [Channel.next] at h
    split at h
    all_goals
      cases h
      rw [hnotify]
      exact .idle _
  | parked =>
    simp only [Channel.next] at h
    split at h
    · cases h
    · cases h
      exact .idle _
  | returned => cases h

end Rounds

/-! ## The invariant -/

/-- An offer of a rendezvous that has not been answered: its value is in the slot as long as nothing
was taken since. -/
@[grind cases]
structure Offered (st : ChannelState V) (i : Nat) (v : V) (token : Nat) : Prop where
  rendezvous : st.capacity = 0
  entries : entriesOf i st.log = [(i, .put v)]
  token_le : token ≤ st.taken
  slot : token = st.taken → st.queue = [(i, v)]

/-- The actions behind the result of a call. -/
inductive Settled (nil : V) (i : Nat) (log : List (Nat × Action V)) : Op V → Result V → Prop where
  | take {op : Op V} {v : V} (hop : op = .take ∨ op = .takeBlocking ∨ op = .poll)
      (h : entriesOf i log = [(i, .take v)]) : Settled nil i log op (.value v)
  | takeClosed {op : Op V} (hop : op = .take ∨ op = .takeBlocking)
      (h : entriesOf i log = [(i, .takeClosed)]) : Settled nil i log op (.value nil)
  | miss (h : entriesOf i log = [(i, .miss)]) : Settled nil i log .poll (.value nil)
  | put {op : Op V} {v : V} (hop : op = .put v ∨ op = .putBlocking v ∨ op = .offer v)
      (h : entriesOf i log = [(i, .put v)]) : Settled nil i log op (.accepted true)
  | refuse {op : Op V} {v : V} (hop : op = .put v ∨ op = .putBlocking v)
      (h : entriesOf i log = [(i, .refuse)]) : Settled nil i log op (.accepted false)
  | withdraw {op : Op V} {v : V} (hop : op = .put v ∨ op = .putBlocking v)
      (h : entriesOf i log = [(i, .withdraw), (i, .put v)]) :
      Settled nil i log op (.accepted false)
  | decline {v : V} (h : entriesOf i log = [(i, .decline)]) :
      Settled nil i log (.offer v) (.accepted false)
  | close (h : entriesOf i log = [(i, .close)]) : Settled nil i log .close .unit

/-- How a call stands: it has done nothing yet, its offer is open, or it is settled. -/
inductive Standing (nil : V) (st : ChannelState V) (i : Nat) (op : Op V) : Pc V → Prop where
  | started {pc : Pc V} (hpc : pc = op.start) (h : entriesOf i st.log = []) : Standing nil st i op pc
  | offered {pc : Pc V} {v : V} {token : Nat}
      (hpc : op = .put v ∧ pc = .pending token ∨ op = .putBlocking v ∧ pc = .pendingBlocking token)
      (h : Offered st i v token) : Standing nil st i op pc
  | settled {pc : Pc V} {result : Result V} (hpc : pc = .returned result)
      (h : Settled nil i st.log op result) : Standing nil st i op pc

/-- The queue is the replay of the actions that count, and each call stands as its actions say. On a
rendezvous channel the replay without the value in the slot is an empty queue. -/
@[grind cases]
structure Inv (nil : V) (capacity : Nat) (s : State (Chan V) (Call V)) : Prop where
  capacity_eq : s.shared.state.capacity = capacity
  replay : Replay (max capacity 1) (lin s.shared.state.log)
    ⟨s.shared.state.queue.map Prod.snd, s.shared.state.closed⟩
  slot : capacity = 0 → ∀ o v, s.shared.state.queue = [(o, v)] →
    Replay (max capacity 1) (dropPut o (lin s.shared.state.log)) ⟨[], s.shared.state.closed⟩
  standing : ∀ i call, s.calls[i]? = some call →
    Standing nil s.shared.state i call.op call.pc.core
  known : ∀ e ∈ s.shared.state.log, e.1 < s.calls.length

section Preservation

variable {nil : V} {capacity : Nat} {s : State (Chan V) (Call V)} {i : Nat} {call : Call V}
  {pc' : Pc V} {c' : Chan V}

variable {st st' : ChannelState V} {op : Op V} {pc : Pc V} {action : Action V} {v : V}

theorem Standing.mono {j : Nat}
    (h : Standing nil st j op pc) (hentries : entriesOf j st'.log = entriesOf j st.log)
    (hcapacity : st'.capacity = st.capacity) (htaken : st.taken ≤ st'.taken)
    (hslot : ∀ v, Offered st j v st'.taken → st'.queue = [(j, v)]) : Standing nil st' j op pc := by
  cases h with
  | started hpc h => exact .started hpc (hentries.trans h)
  | @offered v token hpc h =>
    refine .offered hpc ⟨hcapacity.trans h.rendezvous, hentries.trans h.entries,
      Nat.le_trans h.token_le htaken, ?_⟩
    grind
  | settled hpc h =>
    refine .settled hpc ?_
    cases h with
    | take hop h => exact .take hop (hentries.trans h)
    | takeClosed hop h => exact .takeClosed hop (hentries.trans h)
    | miss h => exact .miss (hentries.trans h)
    | put hop h => exact .put hop (hentries.trans h)
    | refuse hop h => exact .refuse hop (hentries.trans h)
    | withdraw hop h => exact .withdraw hop (hentries.trans h)
    | decline h => exact .decline (hentries.trans h)
    | close h => exact .close (hentries.trans h)

theorem start_injective {op' : Op V} (h : op.start = op'.start) : op = op' := by
  cases op <;> cases op' <;> cases h <;> rfl

section Standing

variable (h : Standing nil st i op pc)
include h

theorem Standing.of_started (op' : Op V) (hpc : pc = op'.start) :
    op = op' ∧ entriesOf i st.log = [] := by
  cases h with
  | started hstart h => exact ⟨start_injective (hstart.symm.trans hpc), h⟩
  | offered hoffer h =>
    rcases hoffer with ⟨-, hoffer⟩ | ⟨-, hoffer⟩
    all_goals
      rw [hoffer] at hpc
      cases op' <;> cases hpc
  | settled hsettled h =>
    rw [hsettled] at hpc
    cases op' <;> cases hpc

theorem Standing.of_pending {token : Nat} (hpc : pc = .pending token ∨ pc = .pendingBlocking token) :
    ∃ v, (op = .put v ∨ op = .putBlocking v) ∧ Offered st i v token := by
  cases h with
  | started hstart h => cases op <;> rcases hpc with rfl | rfl <;> cases hstart
  | @offered v token' hoffer h => grind
  | settled hsettled h => rcases hpc with rfl | rfl <;> cases hsettled

theorem Standing.of_putting (hpc : pc = .putting v ∨ pc = .puttingBlocking v ∨ pc = .offering v) :
    (op = .put v ∨ op = .putBlocking v ∨ op = .offer v) ∧ entriesOf i st.log = [] := by
  rcases hpc with rfl | rfl | rfl
  · exact (h.of_started (.put v) rfl).imp_left .inl
  · exact (h.of_started (.putBlocking v) rfl).imp_left (.inr ∘ .inl)
  · exact (h.of_started (.offer v) rfl).imp_left (.inr ∘ .inr)

theorem Standing.of_taking (hpc : pc = .taking ∨ pc = .takingBlocking ∨ pc = .polling) :
    (op = .take ∨ op = .takeBlocking ∨ op = .poll) ∧ entriesOf i st.log = [] := by
  rcases hpc with rfl | rfl | rfl
  · exact (h.of_started .take rfl).imp_left .inl
  · exact (h.of_started .takeBlocking rfl).imp_left (.inr ∘ .inl)
  · exact (h.of_started .poll rfl).imp_left (.inr ∘ .inr)

end Standing

section Acting

variable (h : Inv nil capacity s) (hi : s.calls[i]? = some call)
  (hmoved : Standing nil c'.state i call.op pc'.core)
include h hi hmoved

/-- A call that acts leaves the others as they stand. -/
theorem Inv.acted (hlog : c'.state.log = (i, action) :: s.shared.state.log)
    (hcapacity : c'.state.capacity = s.shared.state.capacity)
    (htaken : s.shared.state.taken ≤ c'.state.taken)
    (hoffers : ∀ j v, j ≠ i → Offered s.shared.state j v c'.state.taken → c'.state.queue = [(j, v)])
    (hreplay : Replay (max capacity 1) (lin ((i, action) :: s.shared.state.log))
      ⟨c'.state.queue.map Prod.snd, c'.state.closed⟩)
    (hslot : capacity = 0 → ∀ o v, c'.state.queue = [(o, v)] →
      Replay (max capacity 1) (dropPut o (lin ((i, action) :: s.shared.state.log)))
        ⟨[], c'.state.closed⟩) :
    Inv nil capacity ⟨c', s.calls.set i ⟨call.op, pc'⟩⟩ := by
  rw [← hlog] at hreplay hslot
  refine ⟨hcapacity.trans h.capacity_eq, hreplay, hslot, ?_, ?_⟩
  · intro k c hk
    rcases getElem?_set_cases hk with ⟨rfl, rfl⟩ | ⟨hki, hk⟩
    · exact hmoved
    · refine (h.standing k c hk).mono ?_ hcapacity htaken fun v => hoffers k v hki
      rw [hlog]
      exact filter_cons_of_neg (by simpa using Ne.symm hki)
  · grind

theorem Inv.record {closed : Bool} (hput : isPut action = false) (hwithdraw : isWithdraw action = false)
    (hstate : c'.state = { s.shared.state with closed := closed, log := (i, action) :: s.shared.state.log })
    (hstep : ∀ waiting, waiting = s.shared.state.queue.map Prod.snd ∨ s.shared.state.queue ≠ [] →
      Fifo.Step (max capacity 1) ⟨waiting, s.shared.state.closed⟩ ⟨waiting, closed⟩ action) :
    Inv nil capacity ⟨c', s.calls.set i ⟨call.op, pc'⟩⟩ := by
  have hlin : lin ((i, action) :: s.shared.state.log) = (i, action) :: lin s.shared.state.log :=
    lin_cons hwithdraw fun h => by rw [hput] at h; cases h
  obtain ⟨state, _, _⟩ := c'
  cases hstate
  refine h.acted hi hmoved rfl rfl (Nat.le_refl _) (fun _ _ _ hoffered => hoffered.slot rfl) ?_ ?_
  · rw [hlin]
    exact ⟨_, h.replay, hstep _ (.inl rfl)⟩
  · intro hcapacity o v hqueue
    rw [hlin, dropPut_cons (.inr hput)]
    refine ⟨_, h.slot hcapacity o v hqueue, hstep [] (.inr ?_)⟩
    grind

theorem Inv.idle (hstate : c'.state = s.shared.state) :
    Inv nil capacity ⟨c', s.calls.set i ⟨call.op, pc'⟩⟩ := by
  refine ⟨?_, ?_, ?_, ?_, ?_⟩
  all_goals grind

/-- A put that enters the queue. -/
theorem Inv.push (hentries : entriesOf i s.shared.state.log = []) (hopen : s.shared.state.closed = false)
    (hroom : s.shared.state.queue.length < max capacity 1)
    (hslot : capacity = 0 → s.shared.state.queue = [])
    (hstate : c'.state = s.shared.state.push i v) :
    Inv nil capacity ⟨c', s.calls.set i ⟨call.op, pc'⟩⟩ := by
  have hlin : lin ((i, .put v) :: s.shared.state.log) = (i, .put v) :: lin s.shared.state.log :=
    lin_cons rfl fun _ => by rw [withdrawn_eq, hentries]; rfl
  obtain ⟨state, _, _⟩ := c'
  cases hstate
  refine h.acted hi hmoved rfl rfl (Nat.le_refl _) ?_ ?_ ?_
  · intro j v' _ hoffered
    have hqueue := hoffered.slot rfl
    grind
  · rw [hlin]
    refine ⟨_, h.replay, hopen, ?_, ?_⟩
    · grind
    · simp
  · intro hcapacity o v' hqueue
    have hempty := hslot hcapacity
    obtain ⟨rfl, rfl⟩ : i = o ∧ v = v' := by simpa [ChannelState.push, hempty] using hqueue
    rw [hlin, dropPut_put, dropPut_eq_self hentries]
    have hreplay := h.replay
    rw [hempty] at hreplay
    exact hreplay

theorem Inv.pop {o : Nat} {rest : List (Nat × V)} (hqueue : s.shared.state.queue = (o, v) :: rest)
    (hstate : c'.state = s.shared.state.pop i v rest) :
    Inv nil capacity ⟨c', s.calls.set i ⟨call.op, pc'⟩⟩ := by
  have hlin : lin ((i, .take v) :: s.shared.state.log) = (i, .take v) :: lin s.shared.state.log :=
    lin_cons rfl nofun
  obtain ⟨state, _, _⟩ := c'
  cases hstate
  refine h.acted hi hmoved rfl rfl (Nat.le_succ _) ?_ ?_ ?_
  · intro j v' _ hoffered
    exact absurd hoffered.token_le (Nat.not_succ_le_self _)
  · rw [hlin]
    refine ⟨_, h.replay, ?_, rfl⟩
    rw [hqueue]
    rfl
  · intro hcapacity o' v' hrest
    have hbound := (replay_delivery h.replay).2
    grind

theorem Inv.withdraw (hoffered : Offered s.shared.state i v s.shared.state.taken)
    (hclosed : s.shared.state.closed = true) (hstate : c'.state = s.shared.state.withdraw i) :
    Inv nil capacity ⟨c', s.calls.set i ⟨call.op, pc'⟩⟩ := by
  have hqueue := hoffered.slot rfl
  have hcapacity : capacity = 0 := h.capacity_eq.symm.trans hoffered.rendezvous
  obtain ⟨state, _, _⟩ := c'
  cases hstate
  refine h.acted hi hmoved rfl rfl (Nat.le_refl _) ?_ ?_ ?_
  · intro j v' hj hoffered'
    have hqueue' := hoffered'.slot rfl
    grind
  · dsimp only
    rw [lin_withdraw, hqueue]
    exact ⟨_, h.slot hcapacity i v hqueue, hclosed, rfl⟩
  · grind

end Acting

theorem entriesOf_first {log : List (Nat × Action V)}
    (h : entriesOf i log = []) : entriesOf i ((i, action) :: log) = [(i, action)] := by
  rw [entriesOf_cons_self, h]

/-- The call that moves stands as its effect says, the counter not having wrapped around. -/
theorem Standing.moved (h : Standing nil st i op pc) (hcount : st.taken < 2 ^ 64)
    (heffect : Effect nil i st pc pc' st') : Standing nil st' i op pc' := by
  have hcounter : st.counter = st.taken := Nat.mod_eq_of_lt hcount
  cases heffect with
  | idle => exact h
  | pushBuffered hloop =>
    obtain ⟨hop, hentries⟩ := h.of_putting hloop
    exact .settled rfl (.put hop (entriesOf_first hentries))
  | @pushSlot _ _ v hloop hopen hcapacity hslot =>
    have hslot' : (st.push i v).queue = [(i, v)] := by
      show st.queue ++ [(i, v)] = _
      rw [hslot]
      rfl
    rcases hloop with ⟨rfl, rfl⟩ | ⟨rfl, rfl⟩
    · obtain ⟨hop, hentries⟩ := h.of_started (.put v) rfl
      exact .offered (.inl ⟨hop, rfl⟩)
        ⟨hcapacity, entriesOf_first hentries, Nat.le_of_eq hcounter, fun _ => hslot'⟩
    · obtain ⟨hop, hentries⟩ := h.of_started (.putBlocking v) rfl
      exact .offered (.inr ⟨hop, rfl⟩)
        ⟨hcapacity, entriesOf_first hentries, Nat.le_of_eq hcounter, fun _ => hslot'⟩
  | pop hloop =>
    obtain ⟨hop, hentries⟩ := h.of_taking hloop
    exact .settled rfl (.take hop (entriesOf_first hentries))
  | takeClosed hloop =>
    rcases hloop with rfl | rfl
    · obtain ⟨hop, hentries⟩ := h.of_started .take rfl
      exact .settled rfl (.takeClosed (.inl hop) (entriesOf_first hentries))
    · obtain ⟨hop, hentries⟩ := h.of_started .takeBlocking rfl
      exact .settled rfl (.takeClosed (.inr hop) (entriesOf_first hentries))
  | miss =>
    obtain ⟨rfl, hentries⟩ := h.of_started .poll rfl
    exact .settled rfl (.miss (entriesOf_first hentries))
  | @refuse _ v hloop hclosed =>
    rcases hloop with rfl | rfl
    · obtain ⟨hop, hentries⟩ := h.of_started (.put v) rfl
      exact .settled rfl (.refuse (.inl hop) (entriesOf_first hentries))
    · obtain ⟨hop, hentries⟩ := h.of_started (.putBlocking v) rfl
      exact .settled rfl (.refuse (.inr hop) (entriesOf_first hentries))
  | @decline v =>
    obtain ⟨rfl, hentries⟩ := h.of_started (.offer v) rfl
    exact .settled rfl (.decline (entriesOf_first hentries))
  | handed hloop =>
    obtain ⟨v, hop, hoffered⟩ := h.of_pending hloop
    exact .settled rfl (.put (hop.imp_right .inl) hoffered.entries)
  | withdraw hloop =>
    obtain ⟨v, hop, hoffered⟩ := h.of_pending hloop
    exact .settled rfl (.withdraw hop (entriesOf_cons_self.trans (by rw [hoffered.entries])))
  | close =>
    obtain ⟨rfl, hentries⟩ := h.of_started .close rfl
    exact .settled rfl (.close (entriesOf_first hentries))

/-- **One step** of a call keeps the invariant, the counter not having wrapped around. -/
theorem Inv.step (h : Inv nil capacity s) (hcount : s.shared.state.taken < 2 ^ 64)
    (hi : s.calls[i]? = some call)
    (heffect : Effect nil i s.shared.state call.pc.core pc'.core c'.state) :
    Inv nil capacity ⟨c', s.calls.set i ⟨call.op, pc'⟩⟩ := by
  have hstanding := h.standing i call hi
  have hmoved := hstanding.moved hcount heffect
  generalize call.pc.core = pc at heffect hstanding
  generalize pc'.core = pc'' at heffect
  generalize hstate : c'.state = st' at heffect
  cases heffect with
  | idle | handed => exact h.idle hi hmoved hstate
  | pushBuffered hloop hopen hcapacity hroom =>
    rw [h.capacity_eq] at hcapacity hroom
    exact h.push hi hmoved (hstanding.of_putting hloop).2 hopen
      (Nat.lt_of_lt_of_le hroom (Nat.le_max_left _ _)) (fun hzero => absurd hzero hcapacity) hstate
  | @pushSlot _ _ v hloop hopen hcapacity hslot =>
    have hputting : pc = .putting v ∨ pc = .puttingBlocking v ∨ pc = .offering v := by
      rcases hloop with ⟨hpc, -⟩ | ⟨hpc, -⟩
      · exact .inl hpc
      · exact .inr (.inl hpc)
    refine h.push hi hmoved (hstanding.of_putting hputting).2 hopen ?_ (fun _ => hslot) hstate
    grind
  | pop hloop hqueue => exact h.pop hi hmoved hqueue hstate
  | takeClosed hloop hclosed hqueue =>
    refine h.record hi hmoved rfl rfl hstate ?_
    rintro waiting (rfl | hnot)
    · exact ⟨hclosed, by rw [hqueue]; rfl, rfl⟩
    · exact absurd hqueue hnot
  | miss hqueue =>
    refine h.record hi hmoved rfl rfl hstate ?_
    rintro waiting (rfl | hnot)
    · exact ⟨by rw [hqueue]; rfl, rfl⟩
    · exact absurd hqueue hnot
  | refuse hloop hclosed => exact h.record hi hmoved rfl rfl hstate fun _ _ => ⟨hclosed, rfl⟩
  | decline | close => exact h.record hi hmoved rfl rfl hstate fun _ _ => rfl
  | withdraw hloop htoken hclosed =>
    obtain ⟨v, -, hoffered⟩ := hstanding.of_pending hloop
    have hcounter : s.shared.state.counter = s.shared.state.taken := Nat.mod_eq_of_lt hcount
    rw [← htoken, hcounter] at hoffered
    exact h.withdraw hi hmoved hoffered hclosed hstate

theorem Inv.started (h : Inv nil capacity s) (op : Op V) :
    Inv nil capacity ⟨s.shared, s.calls ++ [⟨op, op.start⟩]⟩ := by
  refine ⟨h.capacity_eq, h.replay, h.slot, ?_, ?_⟩
  · intro k c hk
    rcases getElem?_append_cases hk with ⟨rfl, rfl⟩ | hk
    · refine .started (by cases op <;> rfl) ?_
      refine filter_eq_nil_iff.mpr ?_
      grind
    · exact h.standing k c hk
  · grind

theorem inv_fresh : Inv nil capacity (fresh capacity) := by
  refine ⟨rfl, rfl, ?_, ?_, ?_⟩
  all_goals exact nofun

end Preservation

/-! ## Runs -/

section Runs

variable [DecidableEq V] {nil : V} {capacity : Nat} {s s' s1 : State (Chan V) (Call V)}

variable {e : Event (Op V) Unit} {es : List (Event (Op V) Unit)}

theorem step_effect (h : (machine nil).step s e = some s') :
    (∃ op, s' = ⟨s.shared, s.calls ++ [⟨op, op.start⟩]⟩) ∨
      ∃ i call c' pc', s.calls[i]? = some call ∧ s' = ⟨c', s.calls.set i ⟨call.op, pc'⟩⟩ ∧
        Effect nil i s.shared.state call.pc.core pc'.core c'.state := by
  rcases Machine.step_cases h with ⟨op, -, rfl⟩ | ⟨i, label, call, c', call', -, hi, hnext, rfl⟩
  · exact .inl ⟨op, rfl⟩
  · simp only [machine] at hnext
    split at hnext
    · cases hnext
    · rename_i c' pc' hpc'
      cases hnext
      exact .inr ⟨i, call, c', pc', hi, rfl, next_effect nil i hpc'⟩

theorem taken_le_of_step (h : (machine nil).step s e = some s') :
    s.shared.state.taken ≤ s'.shared.state.taken := by
  rcases step_effect h with ⟨op, rfl⟩ | ⟨i, call, c', pc', -, rfl, heffect⟩
  · exact Nat.le_refl _
  · exact heffect.taken_le

/-- **The invariant holds in every run** in which the counter does not wrap around. -/
theorem run_inv (hrun : (machine nil).run (fresh capacity) es = some s)
    (hcount : s.shared.state.taken < 2 ^ 64) : Inv nil capacity s := by
  refine Machine.run_invariant
    (I := fun s => s.shared.state.taken < 2 ^ 64 → Inv nil capacity s) ?_ (fun _ => inv_fresh) hrun hcount
  intro s e s' hs hstep hcount'
  have hcount : s.shared.state.taken < 2 ^ 64 := Nat.lt_of_le_of_lt (taken_le_of_step hstep) hcount'
  rcases step_effect hstep with ⟨op, rfl⟩ | ⟨i, call, c', pc', hi, rfl, heffect⟩
  · exact (hs hcount).started op
  · exact (hs hcount).step hcount hi heffect

/-- What has happened since an earlier state: the log has grown by actions of calls that were not
settled then. -/
@[grind cases]
structure Since (s1 s : State (Chan V) (Call V)) : Prop where
  log : ∃ later, s.shared.state.log = later ++ s1.shared.state.log ∧
    ∀ e ∈ later, ∀ call r, s1.calls[e.1]? = some call → call.pc.core ≠ .returned r
  settled : ∀ (i : Nat) (call : Call V) (r : Result V), s1.calls[i]? = some call → call.pc.core = .returned r →
    ∃ call', s.calls[i]? = some call' ∧ call'.pc.core = .returned r
  taken_le : s1.shared.state.taken ≤ s.shared.state.taken

theorem Since.step (h : Since s1 s) (hstep : (machine nil).step s e = some s') : Since s1 s' := by
  obtain ⟨later, hlog, hlater⟩ := h.log
  have htaken := Nat.le_trans h.taken_le (taken_le_of_step hstep)
  rcases step_effect hstep with ⟨op, rfl⟩ | ⟨i, call, c', pc', hi, rfl, heffect⟩
  · refine ⟨⟨later, hlog, hlater⟩, ?_, htaken⟩
    grind
  · have hkeeps : ∀ r, call.pc.core = .returned r → pc'.core = .returned r := by
      rcases heffect.log_cases with ⟨-, hkeeps⟩ | ⟨action, -, hnot⟩
      · exact hkeeps
      · exact fun r hr => absurd hr (hnot r)
    refine ⟨?_, ?_, htaken⟩
    · rcases heffect.log_cases with ⟨hsame, -⟩ | ⟨action, hcons, hnot⟩
      · exact ⟨later, hsame.trans hlog, hlater⟩
      · refine ⟨(i, action) :: later, by rw [hcons, hlog]; rfl, ?_⟩
        intro e he c r hc hr
        rcases mem_cons.mp he with rfl | he
        · -- a call that was settled then is settled now and takes no action
          grind
        · exact hlater e he c r hc hr
    · grind

theorem run_since (hrun : (machine nil).run s1 es = some s) : Since s1 s := by
  refine Machine.run_invariant (I := Since s1) (fun _ _ _ => Since.step) ?_ hrun
  exact ⟨⟨[], rfl, nofun⟩, fun i call r hi hr => ⟨call, hi, hr⟩, Nat.le_refl _⟩

end Runs

/-! ## The linearization -/

/-- The actions that a call can perform, with its result. -/
inductive Answers (nil : V) : Op V → Action V → Result V → Prop where
  | take {op : Op V} (v : V) (hop : op = .take ∨ op = .takeBlocking ∨ op = .poll) :
      Answers nil op (.take v) (.value v)
  | takeClosed {op : Op V} (hop : op = .take ∨ op = .takeBlocking) :
      Answers nil op .takeClosed (.value nil)
  | miss : Answers nil .poll .miss (.value nil)
  | put {op : Op V} {v : V} (hop : op = .put v ∨ op = .putBlocking v ∨ op = .offer v) :
      Answers nil op (.put v) (.accepted true)
  | refuse {op : Op V} {v : V} (hop : op = .put v ∨ op = .putBlocking v) :
      Answers nil op .refuse (.accepted false)
  | withdraw {op : Op V} {v : V} (hop : op = .put v ∨ op = .putBlocking v) :
      Answers nil op .withdraw (.accepted false)
  | decline (v : V) : Answers nil (.offer v) .decline (.accepted false)
  | close : Answers nil .close .close .unit

/-- The value that a call brings. -/
def Op.value : Op V → Option V
  | .put v | .putBlocking v | .offer v => some v
  | _ => none

/-- A linearization of a run: an order of actions, the newest first, in which every call acts at most
once and every call that has returned acted as its result says, which a bounded queue allows, and
which keeps calls in order that did not overlap. -/
@[grind cases]
structure Linearization [DecidableEq V] (nil : V) (capacity : Nat) (es : List (Event (Op V) Unit))
    (s : State (Chan V) (Call V)) (actions : List (Nat × Action V)) : Prop where
  legal : Replay (max capacity 1) actions ⟨s.shared.state.queue.map Prod.snd, s.shared.state.closed⟩
  known : ∀ e ∈ actions, e.1 < s.calls.length
  once : ∀ (i : Nat) (call : Call V), s.calls[i]? = some call → entriesOf i actions = [] ∨
    ∃ action r, entriesOf i actions = [(i, action)] ∧ Answers nil call.op action r
  returned : ∀ (i : Nat) (call : Call V) (r : Result V), s.calls[i]? = some call →
    call.pc = .returned r → ∃ action, entriesOf i actions = [(i, action)] ∧ Answers nil call.op action r
  delivery : accepted actions = delivered actions ++ s.shared.state.queue.map Prod.snd
  bound : s.shared.state.queue.length ≤ max capacity 1
  order : ∀ es1 es2 s1, es = es1 ++ es2 → (machine nil).run (fresh capacity) es1 = some s1 →
    ∃ later earlier, actions = later ++ earlier ∧ (∀ e ∈ earlier, e.1 < s1.calls.length) ∧
      ∀ e ∈ later, ∀ (call : Call V) (r : Result V), s1.calls[e.1]? = some call → call.pc ≠ .returned r

section Final

variable {nil : V} {log : List (Nat × Action V)} {i : Nat} {op : Op V}

theorem entriesOf_lin : entriesOf i (lin log) =
    (entriesOf i log).filter fun e => !(isPut e.2 && (entriesOf i log).any fun e => isWithdraw e.2) := by
  rw [← withdrawn_eq, lin, entriesOf, entriesOf, filter_filter, filter_filter]
  refine filter_congr ?_
  intro e _
  by_cases hei : e.1 = i
  · simp [counts, hei]
  · grind

theorem Settled.answers {r : Result V} (h : Settled nil i log op r) :
    ∃ action, entriesOf i (lin log) = [(i, action)] ∧ Answers nil op action r := by
  rw [entriesOf_lin]
  cases h with
  | take hop h => exact ⟨_, by rw [h]; rfl, .take _ hop⟩
  | takeClosed hop h => exact ⟨_, by rw [h]; rfl, .takeClosed hop⟩
  | miss h => exact ⟨_, by rw [h]; rfl, .miss⟩
  | put hop h => exact ⟨_, by rw [h]; rfl, .put hop⟩
  | refuse hop h => exact ⟨_, by rw [h]; rfl, .refuse hop⟩
  | withdraw hop h => exact ⟨_, by rw [h]; rfl, .withdraw hop⟩
  | decline h => exact ⟨_, by rw [h]; rfl, .decline _⟩
  | close h => exact ⟨_, by rw [h]; rfl, .close⟩

theorem Standing.answers {st : ChannelState V} {pc : Pc V} (h : Standing nil st i op pc) :
    entriesOf i (lin st.log) = [] ∨
      ∃ action r, entriesOf i (lin st.log) = [(i, action)] ∧ Answers nil op action r := by
  cases h with
  | started _ h => exact .inl (by rw [entriesOf_lin, h]; rfl)
  | offered hop h =>
    refine .inr ⟨_, _, by rw [entriesOf_lin, h.entries]; rfl, .put ?_⟩
    grind
  | settled _ h =>
    obtain ⟨action, haction⟩ := h.answers
    exact .inr ⟨action, _, haction⟩

variable [DecidableEq V] {capacity : Nat} {s : State (Chan V) (Call V)}
  {es : List (Event (Op V) Unit)}

theorem linearization_lin (hrun : (machine nil).run (fresh capacity) es = some s)
    (hcount : s.shared.state.taken < 2 ^ 64) :
    Linearization nil capacity es s (lin s.shared.state.log) := by
  have hinv := run_inv hrun hcount
  refine ⟨hinv.replay, ?_, ?_, ?_, (replay_delivery hinv.replay).1, ?_, ?_⟩
  · intro e he
    exact hinv.known e (mem_of_mem_filter he)
  · intro i call hi
    exact (hinv.standing i call hi).answers
  · intro i call r hi hr
    have hstanding := hinv.standing i call hi
    rw [hr] at hstanding
    cases hstanding with
    | started hpc _ => cases hop : call.op <;> rw [hop] at hpc <;> cases hpc
    | offered hpc _ => rcases hpc with ⟨-, hpc⟩ | ⟨-, hpc⟩ <;> cases hpc
    | settled hpc h => cases hpc; exact h.answers
  · have hbound := (replay_delivery hinv.replay).2
    rwa [length_map] at hbound
  · rintro es1 es2 s1 rfl hrun1
    have hsince := run_since (Machine.run_append hrun hrun1)
    obtain ⟨later, hlog, hlater⟩ := hsince.log
    have htaken : s1.shared.state.taken < 2 ^ 64 := Nat.lt_of_le_of_lt hsince.taken_le hcount
    refine ⟨later.filter (counts s.shared.state.log),
      s1.shared.state.log.filter (counts s.shared.state.log), ?_, ?_, ?_⟩
    · rw [← filter_append, ← hlog]
      rfl
    · intro e he
      exact (run_inv hrun1 htaken).known e (mem_of_mem_filter he)
    · intro e he call r hcall hr
      exact hlater e (mem_of_mem_filter he) call r hcall (by rw [hr]; rfl)

theorem putter_of_mem {actions : List (Nat × Action V)} {v : V}
    (h : Linearization nil capacity es s actions) (hmem : (i, .put v) ∈ actions) :
    ∃ call ∈ s.calls, call.op.value = some v := by
  obtain ⟨call, hi⟩ : ∃ call, s.calls[i]? = some call :=
    ⟨_, getElem?_eq_getElem (h.known _ hmem)⟩
  have hentry : (i, .put v) ∈ entriesOf i actions := mem_entriesOf.mpr ⟨hmem, rfl⟩
  refine ⟨call, mem_of_getElem? hi, ?_⟩
  rcases h.once i call hi with hnone | ⟨action, r, hone, hanswers⟩
  · grind
  · rw [hone, mem_singleton] at hentry
    cases hentry
    generalize call.op = op at hanswers
    cases hanswers with
    | put hop => rcases hop with rfl | rfl | rfl <;> rfl

/-- **Channels linearize to a bounded queue.** A take answers `nil` only when it finds the channel
closed and drained, provided that no call puts a `nil`. -/
theorem channel_linearizable (nil : V) (capacity : Nat)
    (hrun : (machine nil).run (fresh capacity) es = some s)
    (hcount : s.shared.state.taken < 2 ^ 64) :
    ∃ actions, Linearization nil capacity es s actions ∧
      ((∀ call ∈ s.calls, call.op.value ≠ some nil) →
        ∀ (i : Nat) (call : Call V), s.calls[i]? = some call →
          (call.op = .take ∨ call.op = .takeBlocking) → call.pc = .returned (.value nil) →
          (i, .takeClosed) ∈ actions) := by
  have hlin := linearization_lin hrun hcount
  refine ⟨lin s.shared.state.log, hlin, ?_⟩
  intro hnil i call hi hop hr
  obtain ⟨action, hentries, hanswers⟩ := hlin.returned i call _ hi hr
  have hentry : (i, action) ∈ entriesOf i (lin s.shared.state.log) := by
    rw [hentries]
    exact mem_singleton_self _
  have hmem := (mem_entriesOf.mp hentry).1
  generalize hresult : Result.value nil = result at hanswers
  generalize call.op = op at hanswers hop
  cases hanswers with
  | takeClosed => exact hmem
  | take v =>
    cases hresult
    -- the `nil` was accepted from some call, and none brings it
    have haccepted : nil ∈ accepted (lin s.shared.state.log) := by
      rw [hlin.delivery]
      exact mem_append_left _ (mem_delivered hmem)
    obtain ⟨caller, hcaller⟩ := exists_of_mem_accepted haccepted
    obtain ⟨putter, hputter, hvalue⟩ := putter_of_mem hlin hcaller
    exact absurd hvalue (hnil putter hputter)
  | miss => rcases hop with hop | hop <;> cases hop
  | put | refuse | withdraw | decline | close => cases hresult

end Final

section HandOff

/-- A taker parks on a rendezvous channel, a putter hands its value over, and the channel is closed
before a second take. -/
def handOff : List (Event (Op (Option Nat)) Unit) :=
  [.call (.put (some 5)), .call .take, .step 1 (), .step 1 (), .step 0 (), .step 0 (), .step 1 (),
    .step 1 (), .step 0 (), .step 1 (), .call .close, .step 2 (), .step 2 (), .step 2 (), .call .take,
    .step 3 (), .step 3 ()]

theorem channel_linearizable_handOff : ∃ s actions, (machine none).run (fresh 0) handOff = some s ∧
      Linearization none 0 handOff s actions ∧ (3, .takeClosed) ∈ actions := by
  obtain ⟨s, hrun, htaken, hcalls⟩ : ∃ s, (machine none).run (fresh 0) handOff = some s ∧
      s.shared.state.taken = 1 ∧
      s.calls = [⟨.put (some 5), .returned (.accepted true)⟩, ⟨.take, .returned (.value (some 5))⟩,
        ⟨.close, .returned .unit⟩, ⟨.take, .returned (.value none)⟩] :=
    ⟨_, rfl, rfl, rfl⟩
  obtain ⟨actions, hlin, hnil⟩ := channel_linearizable none 0 hrun (by rw [htaken]; decide)
  rw [hcalls] at hnil
  refine ⟨s, actions, hrun, hlin, hnil ?_ 3 ⟨.take, .returned (.value none)⟩ rfl (.inl rfl) rfl⟩
  simp [Op.value]

/-- A `nil` that is put is taken from an open channel. -/
theorem nil_taken_open : ∃ s, (machine none).run (fresh 1)
        [.call (.put (none : Option Nat)), .step 0 (), .step 0 (), .call .take, .step 1 (), .step 1 (),
          .step 1 ()] = some s ∧
      s.calls = [⟨.put none, .returned (.accepted true)⟩, ⟨.take, .returned (.value none)⟩] ∧
      s.shared.state.closed = false :=
  ⟨_, rfl, rfl, rfl⟩

end HandOff

end Clojurust.Channel
