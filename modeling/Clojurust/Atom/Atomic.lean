import Clojurust.Atom.Basic

/-!
# Updates of atoms

* `Legal`, `Orderly`, `Atomic` — the history of an atom: a `swap!` stores what its function gave for a
  value, a call that fails has stored nothing; and with atomic updates, it was the value right before;
* `Step`, `localNext_step`, `sharedNext_step` — what a step does, on both kinds of atoms;
* `Stands` — what the history says of a call by where it stands;
* `heeds` — the steps that keep updates atomic: no other call has stored between the read of a `swap!`
  and its store, and no function fails in compiled code;
* `atom_updates_atomic` — the histories that are atomic.
-/

namespace Clojurust.Atom

open Interleaving Future List

variable {V S : Type}

/-! ## Histories -/

namespace Entry

def call : Entry V S → Nat
  | apply i _ _ | store i _ _ _ _ | notify i _ _ _ | finish i _ _ => i

def isStore : Entry V S → Bool
  | store _ _ _ _ _ => true
  | _ => false

def isFinish : Entry V S → Bool
  | finish _ _ _ => true
  | _ => false

/-- The argument and the answer of an update function. -/
def answer? : Entry V S → Option (V × Except (EvalError V) V)
  | apply _ argument answer => some (argument, answer)
  | _ => none

end Entry

/-- What a call has done. -/
def own (i : Nat) (history : List (Entry V S)) : List (Entry V S) :=
  history.filter fun e => e.call == i

/-- The content of an atom after a history. -/
def current (init : S) : List (Entry V S) → S
  | [] => init
  | .store _ _ _ after _ :: _ => after
  | _ :: past => current init past

section Legal

-- whether a `swap!` may store over another value than it has seen, and return without a store
variable (vals : Values V) (rep : Rep V S) (lax : Prop)

/-- Nothing is stored. -/
def Untouched (mine : List (Entry V S)) : Prop := ∀ e ∈ mine, e.isStore = false

/-- The call is not over. -/
def Open (mine : List (Entry V S)) : Prop := ∀ e ∈ mine, e.isFinish = false

/-- A call that has done something may store a value over another. A `swap!` may store the latest answer
of its function, if that was for the value right before. -/
def MayStore (mine : List (Entry V S)) (before after : S) : Op V → Prop
  | .reset v | .resetValue v | .rtAtomReset v => rep.promote v = .ok after
  | .swap | .swapFn | .rtAtomSwap =>
    ∃ seen v, mine.findSome? Entry.answer? = some (seen, .ok v) ∧ (lax ∨ seen = rep.demote before) ∧
      rep.promote v = .ok after
  | .compareAndSet expected v => vals.eq (rep.demote before) expected = true ∧ rep.promote v = .ok after
  | _ => False

/-- The call has stored a value. -/
def Stored (mine : List (Entry V S)) (op : Op V) (v : V) : Prop :=
  ∃ i before after watches, .store i op before after watches ∈ mine ∧ rep.promote v = .ok after

/-- A call that has done something may be over: `reset!` and `swap!` return what they have stored,
`compare-and-set!` whether it has, and a call that fails for another reason than a watch has stored
nothing. A `reset!` of compiled code that fails gives nil. -/
def MayFinish (mine : List (Entry V S)) : Op V → Except (Failure V) V → Prop
  | .compareAndSet expected v, .ok a =>
    (a = vals.bool true ∧ Stored rep mine (.compareAndSet expected v) v) ∨
      (a = vals.bool false ∧ Untouched mine)
  | .rtAtomReset v, .ok a => Stored rep mine (.rtAtomReset v) a ∨ (a = vals.nil ∧ Untouched mine)
  | .rtAtomSwap, .ok a => Stored rep mine .rtAtomSwap a ∨ (lax ∧ a = vals.nil ∧ Untouched mine)
  | op, .ok v => Stored rep mine op v
  | op, .error (.watch _) => ∃ v, Stored rep mine op v
  | _, .error _ => Untouched mine

variable (init : S)

/-- An entry after a history. A call stores at most once, and does nothing when it is over. -/
def Legal (past : List (Entry V S)) (e : Entry V S) : Prop :=
  Open (own e.call past) ∧
    match e with
    | .store i op before after _ =>
      before = current init past ∧ Untouched (own i past) ∧
        MayStore vals rep lax (own i past) before after op
    | .finish i op outcome => MayFinish vals rep lax (own i past) op outcome
    | _ => True

def Lawful (history : List (Entry V S)) : Prop := Justified (Legal vals rep lax init) history

/-- Nothing is asked of the value that a `swap!` has seen, nor of one that gives nil. -/
def Orderly (history : List (Entry V S)) : Prop := Lawful vals rep True init history

/-- A `swap!` that returns has stored, and has seen the value right before. -/
def Atomic (history : List (Entry V S)) : Prop := Lawful vals rep False init history

end Legal

/-! ## Histories that grow -/

section Growth

variable {i k : Nat} {c c1 c2 : Cell V S}

variable {e : Entry V S} {history : List (Entry V S)}

theorem own_cons_self (h : e.call = i) : own i (e :: history) = e :: own i history := by
  exact filter_cons_of_pos (beq_iff_eq.mpr h)

theorem own_cons_other (h : e.call ≠ k) : own k (e :: history) = own k history := by
  exact filter_cons_of_neg (mt beq_iff_eq.mp h)

theorem own_apply (argument : V) (r : Except (EvalError V) V) :
    own i (c.record (.apply i argument r)).history = .apply i argument r :: own i c.history :=
  own_cons_self rfl

theorem own_notify (watch : Watch V) (old new : V) :
    own i (c.record (.notify i watch old new)).history = .notify i watch old new :: own i c.history :=
  own_cons_self rfl

theorem own_finish (op : Op V) (outcome : Except (Failure V) V) :
    own i (c.record (.finish i op outcome)).history = .finish i op outcome :: own i c.history :=
  own_cons_self rfl

theorem own_store (op : Op V) (after : S) : own i (c.store i op after).history =
    .store i op c.content after c.watches :: own i c.history := own_cons_self rfl

/-- The history ends with the content of the atom. -/
def Consistent (init : S) (c : Cell V S) : Prop := current init c.history = c.content

/-- What a call may do to an atom, as the others see it. -/
@[grind cases]
structure Grows (i : Nat) (c c' : Cell V S) : Prop where
  own : ∀ k, k ≠ i → own k c'.history = own k c.history
  cell : (c'.arc = c.arc ∧ c'.content = c.content) ∨ c.arc < c'.arc
  entries : ∀ e ∈ c'.history, e ∈ c.history ∨ e.call = i
  consistent : ∀ init, Consistent init c → Consistent init c'

theorem Grows.refl (i : Nat) (c : Cell V S) : Grows i c c :=
  ⟨fun _ _ => rfl, .inl ⟨rfl, rfl⟩, fun _ he => .inl he, fun _ => id⟩

theorem Grows.trans (h1 : Grows i c c1) (h2 : Grows i c1 c2) : Grows i c c2 := by
  refine ⟨fun k hk => (h2.own k hk).trans (h1.own k hk), ?_, ?_,
    fun init hc => h2.consistent init (h1.consistent init hc)⟩
  · grind
  · grind

theorem grows_cons (h : e.call = i) (hhistory : c1.history = e :: c.history)
    (hcell : (c1.arc = c.arc ∧ c1.content = c.content) ∨ c.arc < c1.arc)
    (hconsistent : ∀ init, Consistent init c → Consistent init c1) : Grows i c c1 := by
  refine ⟨?_, hcell, ?_, hconsistent⟩
  · rintro k hk
    rw [hhistory]
    exact own_cons_other (h ▸ hk.symm)
  · grind

theorem grows_record (h : e.call = i) (he : e.isStore = false) : Grows i c (c.record e) := by
  refine grows_cons h rfl (.inl ⟨rfl, rfl⟩) fun init hc => ?_
  cases e with
  | store => cases he
  | _ => exact hc

theorem grows_store (op : Op V) (after : S) : Grows i c (c.store i op after) :=
  grows_cons rfl rfl (.inr (Nat.lt_succ_self _)) fun _ _ => rfl

end Growth

/-! ## Steps -/

section

variable (vals : Values V) (rep : Rep V S) (i : Nat) (label : Label V) (c : Cell V S)

/-- What a step of call `i` does, on either kind of atom. -/
inductive Step : Pc V S → Cell V S × Pc V S → Prop where
  | check (origin : Origin V) (v : V) {pc : Pc V S}
      (hpc : pc = .validating origin v ∨ (c.validated = false ∧ pc = .committing origin v)) :
      Step (.resetting origin v) (c, pc)
  | load (tier : Tier) : Step (.loading tier) (c, .applying tier c.content c.arc)
  | answer (tier : Tier) (seen : S) (arc : Nat) (v : V) {origin : Origin V} {pc : Pc V S}
      (horigin : origin = .swap (rep.demote seen) arc ∨ origin = .swapFn (rep.demote seen) arc)
      (hpc : pc = .resetting origin v ∨ pc = .validating origin v ∨
        (c.validated = false ∧ pc = .committing origin v) ∨ pc = .publishing origin v) :
      Step (.applying tier seen arc) (c.record (.apply i (rep.demote seen) (.ok v)), pc)
  | prepare (tier : Tier) (seen : S) (arc : Nat) (v : V) {content : S} {pc : Pc V S}
      (hpromote : rep.promote v = .ok content)
      (hpc : pc = .exchanging tier seen arc content v ∨ pc = .matching seen arc v) :
      Step (.applying tier seen arc) (c.record (.apply i (rep.demote seen) (.ok v)), pc)
  | failAnswer (tier : Tier) (seen : S) (arc : Nat) {r : Except (EvalError V) V} {f : Failure V}
      (hf : ∀ e, f ≠ .watch e) (hlabel : label = .answer r)
      (hr : ∀ v, r = .ok v → ∃ message, rep.promote v = .error message) :
      Step (.applying tier seen arc)
        ((c.record (.apply i (rep.demote seen) r)).fail i vals tier.op f)
  | pass (origin : Origin V) (v : V) {a : V} (hlabel : label = .answer (.ok a))
      (ha : vals.falsy a = false) :
      Step (.validating origin v) (c, .committing origin v)
  | refuse (origin : Origin V) (v : V) {f : Failure V} (hf : ∀ e, f ≠ .watch e) :
      Step (.validating origin v) (c.fail i vals (origin.op v) f)
  | commit (origin : Origin V) (v : V) {content : S} (hpromote : rep.promote v = .ok content) :
      Step (.committing origin v) (c.store i (origin.op v) content,
        .notifying (origin.op v) c.watches (origin.old (rep.demote c.content)) v)
  | publish (origin : Origin V) (v : V) {content : S} (hpromote : rep.promote v = .ok content) :
      Step (.publishing origin v) ((c.store i (origin.op v) content).finish i (origin.op v) v)
  | failPublish (origin : Origin V) (v : V) {message : String}
      (hpromote : rep.promote v = .error message) :
      Step (.publishing origin v) (c.fail i vals (origin.op v) (.promotion message))
  | exchange (tier : Tier) (seen content : S) (v : V) :
      Step (.exchanging tier seen c.arc content v) ((c.store i tier.op content).finish i tier.op v)
  | agree (seen : S) (arc : Nat) (v : V) {content : S} (hpromote : rep.promote v = .ok content)
      (heq : vals.eq (rep.demote c.content) (rep.demote seen) = true) :
      Step (.matching seen arc v) ((c.store i .rtAtomSwap content).finish i .rtAtomSwap v)
  | retry (tier : Tier) {pc : Pc V S}
      (hpc : (∃ seen arc content v, pc = .exchanging tier seen arc content v) ∨
        ∃ seen arc v, pc = .matching seen arc v) :
      Step pc (c, .loading tier)
  | compare (expected v : V) {content : S} (heq : vals.eq (rep.demote c.content) expected = true)
      (hpromote : rep.promote v = .ok content) :
      Step (.comparing expected v)
        ((c.store i (.compareAndSet expected v) content).finish i (.compareAndSet expected v)
          (vals.bool true))
  | plan (expected v : V) {content : S} (heq : vals.eq (rep.demote c.content) expected = true)
      (hpromote : rep.promote v = .ok content) :
      Step (.comparing expected v) (c, .replacing expected v c.content c.arc content)
  | failPlan (expected v : V) (message : String) :
      Step (.comparing expected v) (c.fail i vals (.compareAndSet expected v) (.promotion message))
  | replace (expected v : V) (seen content : S) :
      Step (.replacing expected v seen c.arc content)
        ((c.store i (.compareAndSet expected v) content).finish i (.compareAndSet expected v)
          (vals.bool true))
  | keep (expected v : V) {pc : Pc V S}
      (hpc : pc = .comparing expected v ∨ ∃ seen arc content, pc = .replacing expected v seen arc content) :
      Step pc (c.finish i (.compareAndSet expected v) (vals.bool false))
  | done (op : Op V) (old v : V) : Step (.notifying op [] old v) (c.finish i op v)
  | notify (op : Op V) (watch : Watch V) (pending : List (Watch V)) (old v : V) :
      Step (.notifying op (watch :: pending) old v)
        (c.record (.notify i watch old v), .watching op pending old v)
  | watched (op : Op V) (pending : List (Watch V)) (old v : V) :
      Step (.watching op pending old v) (c, .notifying op pending old v)
  | failWatch (op : Op V) (pending : List (Watch V)) (old v : V) (e : EvalError V) :
      Step (.watching op pending old v) (c.fail i vals op (.watch e))
  | watch {pc : Pc V S} (watches : List (Watch V))
      (hpc : (∃ key f, pc = .adding key f) ∨ ∃ key, pc = .removing key) :
      Step pc ({ c with watches := watches }, .returned (.ok vals.self))

end

variable {vals : Values V} {i : Nat} {label : Label V} {rep : Rep V S} {c : Cell V S} {pc : Pc V S}
  {next : Cell V S × Pc V S}

theorem localNext_step {c : Cell V V} {pc : Pc V V}
    {next : Cell V V × Pc V V} (h : localNext vals i label c pc = some next) :
    Step vals .plain i label c pc next := by
  unfold localNext Cell.validate at h
  split at h <;> (try split at h) <;> cases h
  all_goals first
    | exact .check _ _ (.inl rfl)
    | exact .check _ _ (.inr ⟨Bool.eq_false_iff.mpr ‹_›, rfl⟩)
    | exact .publish _ _ rfl
    | exact .load _
    | exact .failAnswer _ _ _ nofun rfl nofun
    | exact .prepare _ _ _ _ rfl (.inr rfl)
    | exact .agree _ _ _ rfl ‹_›
    | exact .retry _ (.inr ⟨_, _, _, rfl⟩)
    | exact .answer _ _ _ _ (.inr rfl) (.inl rfl)
    | exact .answer _ _ _ _ (.inl rfl) (.inr (.inl rfl))
    | exact .answer _ _ _ _ (.inl rfl) (.inr (.inr (.inl ⟨Bool.eq_false_iff.mpr ‹_›, rfl⟩)))
    | exact .refuse _ _ nofun
    | exact .pass _ _ rfl (Bool.eq_false_iff.mpr ‹_›)
    | exact .commit _ _ rfl
    | exact .done _ _ _
    | exact .notify _ _ _ _ _
    | exact .failWatch _ _ _ _ _
    | exact .watched _ _ _ _
    | exact .compare _ _ ‹_› rfl
    | exact .keep _ _ (.inl rfl)
    | exact .watch _ (.inl ⟨_, _, rfl⟩)
    | exact .watch _ (.inr ⟨_, rfl⟩)

theorem sharedNext_step (h : sharedNext vals rep i label c pc = some next) :
    Step vals rep i label c pc next := by
  unfold sharedNext at h
  split at h <;> (try split at h) <;> (try split at h) <;> cases h
  all_goals first
    | exact .failPublish _ _ ‹_›
    | exact .publish _ _ ‹_›
    | exact .load _
    | exact .failAnswer _ _ _ nofun rfl fun v hv => Except.ok.inj hv ▸ ⟨_, ‹_›⟩
    | exact .failAnswer _ _ _ nofun rfl nofun
    | exact .prepare _ _ _ _ ‹_› (.inl rfl)
    | exact .answer _ _ _ _ (.inr rfl) (.inr (.inr (.inr rfl)))
    | exact ‹_ = _› ▸ .exchange _ _ _ _
    | exact .retry _ (.inl ⟨_, _, _, _, rfl⟩)
    | exact .failPlan _ _ _
    | exact .plan _ _ ‹_› ‹_›
    | exact ‹_ = _› ▸ .replace _ _ _ _
    | exact .keep _ _ (.inl rfl)
    | exact .keep _ _ (.inr ⟨_, _, _, rfl⟩)

theorem Step.grows (h : Step vals rep i label c pc next) : Grows i c next.1 := by
  cases h with
  | check | load | pass | retry | plan | watched => exact Grows.refl i c
  | answer | prepare | refuse | failPublish | failPlan | keep | done | notify | failWatch =>
    exact grows_record rfl rfl
  | @failAnswer _ seen _ r =>
    have happly : Grows i c (c.record (.apply i (rep.demote seen) r)) := grows_record rfl rfl
    exact happly.trans (grows_record rfl rfl)
  | commit => exact grows_store _ _
  | publish | exchange | agree | compare | replace =>
    exact (grows_store _ _).trans (grows_record rfl rfl)
  | watch => exact ⟨fun _ _ => rfl, .inl ⟨rfl, rfl⟩, fun _ he => .inl he, fun _ => id⟩

/-! ## Calls and the history -/

section Stands

/-- The call has stored nothing and is not over. -/
def Fresh (mine : List (Entry V S)) : Prop := Untouched mine ∧ Open mine

/-- An object was seen: if the atom still points to it, the atom holds its value. The address of an
object that is held is not used again. -/
def Saw (rep : Rep V S) (c : Cell V S) (seen : V) (arc : Nat) : Prop :=
  arc ≤ c.arc ∧ (arc = c.arc → seen = rep.demote c.content)

/-- A new value comes from where it is said to come from. -/
def Origin.Answered (rep : Rep V S) (mine : List (Entry V S)) (c : Cell V S) (v : V) : Origin V → Prop
  | .swap seen arc | .swapFn seen arc =>
    mine.findSome? Entry.answer? = some (seen, .ok v) ∧ Saw rep c seen arc
  | _ => True

/-- What a call has done, by where it stands. -/
def Pc.Stands (vals : Values V) (rep : Rep V S) (mine : List (Entry V S)) (c : Cell V S) : Pc V S → Prop
  | .resetting origin v | .validating origin v | .committing origin v =>
    Fresh mine ∧ origin.Answered rep mine c v ∧ origin.asks = true
  | .publishing origin v => Fresh mine ∧ origin.Answered rep mine c v
  | .loading _ | .comparing _ _ => Fresh mine
  | .applying _ seen arc => Fresh mine ∧ Saw rep c (rep.demote seen) arc
  | .exchanging _ seen arc content v => Fresh mine ∧ Saw rep c (rep.demote seen) arc ∧
      mine.findSome? Entry.answer? = some (rep.demote seen, .ok v) ∧ rep.promote v = .ok content
  | .matching seen arc v => Fresh mine ∧ Saw rep c (rep.demote seen) arc ∧
      mine.findSome? Entry.answer? = some (rep.demote seen, .ok v)
  | .replacing expected v seen arc content => Fresh mine ∧ Saw rep c (rep.demote seen) arc ∧
      vals.eq (rep.demote seen) expected = true ∧ rep.promote v = .ok content
  | .notifying op _ _ v | .watching op _ _ v =>
    Open mine ∧ (∃ origin : Origin V, op = origin.op v ∧ origin.asks = true) ∧ Stored rep mine op v
  | _ => True

/-- Nobody has stored since the value was read that a new value was made from. -/
def Origin.undisturbed (arc : Nat) : Origin V → Bool
  | .swap _ seen | .swapFn _ seen => seen == arc
  | _ => true

def promotes (rep : Rep V S) (v : V) : Bool :=
  match rep.promote v with
  | .ok _ => true
  | .error _ => false

/-- The condition on a step. A `swap!` that stores without looking at the atom again does so before any
other call has stored. The one of compiled code on a local atom looks at the value: another call may have
stored one that is not `=` to it, after which it starts again. Its function gives a value that can be
stored. -/
def heeds (vals : Values V) (rep : Rep V S) (c : Cell V S) (label : Label V) : Pc V S → Bool
  | .committing origin _ => origin.undisturbed c.arc
  | .publishing origin v => !promotes rep v || origin.undisturbed c.arc
  | .matching seen arc _ => !vals.eq (rep.demote c.content) (rep.demote seen) || arc == c.arc
  | .applying .compiled _ _ =>
    match label with
    | .answer (.ok v) => promotes rep v
    | _ => false
  | _ => true

variable {vals : Values V} {rep : Rep V S} {lax : Prop} {i : Nat} {c : Cell V S}
  {mine : List (Entry V S)}

theorem Saw.grows {seen : V} {arc : Nat} {c' : Cell V S} (h : Saw rep c seen arc) (hgrows : Grows i c c') :
    Saw rep c' seen arc := by
  rcases hgrows.cell with ⟨harc, hcontent⟩ | hlt
  · exact ⟨harc ▸ h.1, fun heq => hcontent ▸ h.2 (heq.trans harc)⟩
  · refine ⟨Nat.le_trans h.1 (Nat.le_of_lt hlt), fun heq => ?_⟩
    have := h.1
    omega

theorem Origin.Answered.grows {origin : Origin V} {v : V} {c' : Cell V S}
    (h : origin.Answered rep mine c v) (hgrows : Grows i c c') : origin.Answered rep mine c' v := by
  cases origin with
  | swap | swapFn => exact ⟨h.1, h.2.grows hgrows⟩
  | _ => trivial

theorem Pc.Stands.grows {k : Nat} {c' : Cell V S} (h : pc.Stands vals rep (own k c.history) c)
    (hgrows : Grows i c c') (hk : k ≠ i) : pc.Stands vals rep (own k c'.history) c' := by
  rw [hgrows.own k hk]
  cases pc with
  | applying => exact ⟨h.1, h.2.grows hgrows⟩
  | exchanging | replacing | matching => exact ⟨h.1, h.2.1.grows hgrows, h.2.2⟩
  | publishing origin => exact ⟨h.1, h.2.grows hgrows⟩
  | resetting origin | validating origin | committing origin =>
    exact ⟨h.1, h.2.1.grows hgrows, h.2.2⟩
  | _ => exact h

theorem fresh_cons {e : Entry V S} (h : Fresh mine) (hstore : e.isStore = false)
    (hfinish : e.isFinish = false) : Fresh (e :: mine) :=
  ⟨forall_mem_cons.mpr ⟨hstore, h.1⟩, forall_mem_cons.mpr ⟨hfinish, h.2⟩⟩

variable {v : V} {after : S} {op : Op V} {f : Failure V}

theorem promotes_of_ok (h : rep.promote v = .ok after) : promotes rep v = true := by
  rw [promotes, h]

theorem mayStore_origin {origin : Origin V} (hanswered : origin.Answered rep mine c v)
    (hpromote : rep.promote v = .ok after) (hheeds : lax ∨ origin.undisturbed c.arc = true) :
    MayStore vals rep lax mine c.content after (origin.op v) := by
  cases origin with
  | reset | resetValue | rtAtomReset => exact hpromote
  | swap | swapFn =>
    exact ⟨_, v, hanswered.1, hheeds.imp_right fun h => hanswered.2.2 (beq_iff_eq.mp h), hpromote⟩

theorem stored_store (hpromote : rep.promote v = .ok after) :
    Stored rep (own i (c.store i op after).history) op v := by
  rw [own_store]
  exact ⟨i, c.content, after, c.watches, (.head _), hpromote⟩

theorem mayFinish_origin (origin : Origin V) (h : Stored rep mine (origin.op v) v) :
    MayFinish vals rep lax mine (origin.op v) (.ok v) := by
  cases origin with
  | rtAtomReset => exact .inl h
  | _ => exact h

theorem mayFinish_tier (tier : Tier) (h : Stored rep mine tier.op v) :
    MayFinish vals rep lax mine tier.op (.ok v) := by
  cases tier with
  | compiled => exact .inl h
  | _ => exact h

theorem mayStore_tier (tier : Tier) {seen : V} {before : S} (hpromote : rep.promote v = .ok after)
    (hanswer : mine.findSome? Entry.answer? = some (seen, .ok v)) (hseen : lax ∨ seen = rep.demote before) :
    MayStore vals rep lax mine before after tier.op := by
  cases tier <;> exact ⟨seen, v, hanswer, hseen, hpromote⟩

theorem mayFinish_replaced {expected : V} (hpromote : rep.promote v = .ok after) :
    MayFinish vals rep lax (own i (c.store i (.compareAndSet expected v) after).history)
      (.compareAndSet expected v) (.ok (vals.bool true)) :=
  .inl ⟨rfl, stored_store hpromote⟩

variable {init : S}

theorem legal_apply (argument : V) (r : Except (EvalError V) V) (h : Fresh (own i c.history)) :
    Legal vals rep lax init c.history (.apply i argument r) := ⟨h.2, trivial⟩

/-- A call that fails has stored nothing, also if it gives nil. -/
theorem legal_fail (hf : ∀ e, f ≠ .watch e) (hop : op = .rtAtomSwap → lax)
    (h : Fresh (own i c.history)) :
    Legal vals rep lax init c.history (.finish i op (op.failed vals f)) := by
  refine ⟨h.2, ?_⟩
  cases op with
  | rtAtomReset => exact .inr ⟨rfl, h.1⟩
  | rtAtomSwap => exact .inr ⟨hop rfl, rfl, h.1⟩
  | _ =>
    cases f with
    | watch e => exact absurd rfl (hf e)
    | _ => exact h.1

theorem legal_store {watches : List (Watch V)} (hc : Consistent init c) (h : Fresh (own i c.history))
    (hmay : MayStore vals rep lax (own i c.history) c.content after op) :
    Legal vals rep lax init c.history (.store i op c.content after watches) :=
  ⟨h.2, hc.symm, h.1, hmay⟩

theorem lawful_store_finish {a : V} (hlawful : Lawful vals rep lax init c.history)
    (hc : Consistent init c) (h : Fresh (own i c.history))
    (hfinish : MayFinish vals rep lax (own i (c.store i op after).history) op (.ok a))
    (hmay : MayStore vals rep lax (own i c.history) c.content after op) :
    Lawful vals rep lax init ((c.store i op after).finish i op a).1.history := by
  have hopen : Open (own i (c.store i op after).history) := by
    rw [own_store]
    exact forall_mem_cons.mpr ⟨rfl, h.2⟩
  exact ⟨⟨hopen, hfinish⟩, legal_store hc h hmay, hlawful⟩

theorem origin_op_ne (origin : Origin V) (v : V) : origin.op v ≠ .rtAtomSwap := by
  cases origin <;> exact nofun

/-- A step keeps a call where it should stand, and the history lawful if it meets its condition. -/
theorem Step.sound (h : Step vals rep i label c pc next) (hc : Consistent init c)
    (hstands : pc.Stands vals rep (own i c.history) c) (hheeds : lax ∨ heeds vals rep c label pc = true) :
    next.2.Stands vals rep (own i next.1.history) next.1 ∧
      (Lawful vals rep lax init c.history → Lawful vals rep lax init next.1.history) := by
  cases h with
  | check origin v hpc =>
    refine ⟨?_, id⟩
    rcases hpc with rfl | ⟨-, rfl⟩ <;> exact hstands
  | load => exact ⟨⟨hstands, Nat.le_refl _, fun _ => rfl⟩, id⟩
  | answer tier seen arc v horigin hpc =>
    refine ⟨?_, fun hlawful => ⟨legal_apply _ _ hstands.1, hlawful⟩⟩
    have hfresh := fresh_cons (e := .apply i (rep.demote seen) (.ok v)) hstands.1 rfl rfl
    rw [own_apply]
    rcases horigin with rfl | rfl <;> rcases hpc with rfl | rfl | ⟨-, rfl⟩ | rfl
    all_goals first
      | exact ⟨hfresh, ⟨rfl, hstands.2⟩, rfl⟩
      | exact ⟨hfresh, rfl, hstands.2⟩
  | prepare tier seen arc v hpromote hpc =>
    refine ⟨?_, fun hlawful => ⟨legal_apply _ _ hstands.1, hlawful⟩⟩
    have hfresh := fresh_cons (e := .apply i (rep.demote seen) (.ok v)) hstands.1 rfl rfl
    rw [own_apply]
    rcases hpc with rfl | rfl
    · exact ⟨hfresh, hstands.2, rfl, hpromote⟩
    · exact ⟨hfresh, hstands.2, rfl⟩
  | @failAnswer tier seen arc r f hf hlabel hr =>
    have hfresh : Fresh (own i (c.record (.apply i (rep.demote seen) r)).history) := by
      rw [own_apply]
      exact fresh_cons hstands.1 rfl rfl
    have hop : (tier.op : Op V) = .rtAtomSwap → lax := by
      intro hop
      cases tier with
      | lowered | core => cases hop
      | compiled =>
        -- the function has failed, or its value cannot be stored
        refine hheeds.resolve_right fun hheeds => ?_
        subst hlabel
        cases r with
        | error => cases hheeds
        | ok v =>
          obtain ⟨message, hmessage⟩ := hr v rfl
          rw [heeds, promotes, hmessage] at hheeds
          cases hheeds
    exact ⟨trivial, fun hlawful => ⟨legal_fail hf hop hfresh, legal_apply _ _ hstands.1, hlawful⟩⟩
  | pass | watched => exact ⟨hstands, id⟩
  | refuse origin v hf =>
    refine ⟨trivial, fun hlawful => ⟨legal_fail hf (fun h => ?_) hstands.1, hlawful⟩⟩
    exact absurd h (origin_op_ne origin v)
  | commit origin v hpromote =>
    refine ⟨⟨?_, ⟨origin, rfl, hstands.2.2⟩, stored_store hpromote⟩, fun hlawful => ⟨?_, hlawful⟩⟩
    · rw [own_store]
      exact forall_mem_cons.mpr ⟨rfl, hstands.1.2⟩
    · exact legal_store hc hstands.1 (mayStore_origin hstands.2.1 hpromote hheeds)
  | publish origin v hpromote =>
    refine ⟨trivial, fun hlawful => ?_⟩
    refine lawful_store_finish hlawful hc hstands.1 (mayFinish_origin origin (stored_store hpromote)) ?_
    rw [heeds, promotes_of_ok hpromote, Bool.not_true, Bool.false_or] at hheeds
    exact mayStore_origin hstands.2 hpromote hheeds
  | failPublish origin v =>
    refine ⟨trivial, fun hlawful => ⟨legal_fail (fun _ => nofun) (fun h => ?_) hstands.1, hlawful⟩⟩
    exact absurd h (origin_op_ne origin v)
  | exchange tier seen content v =>
    obtain ⟨hfresh, hsaw, hanswer, hpromote⟩ := hstands
    refine ⟨trivial, fun hlawful => lawful_store_finish hlawful hc hfresh
      (mayFinish_tier tier (stored_store hpromote)) ?_⟩
    exact mayStore_tier tier hpromote hanswer (.inr (hsaw.2 rfl))
  | agree seen arc v hpromote heq =>
    obtain ⟨hfresh, hsaw, hanswer⟩ := hstands
    refine ⟨trivial, fun hlawful => lawful_store_finish hlawful hc hfresh
      (mayFinish_tier .compiled (stored_store hpromote)) ?_⟩
    rw [heeds, heq, Bool.not_true, Bool.false_or, beq_iff_eq] at hheeds
    exact mayStore_tier .compiled hpromote hanswer (hheeds.imp_right hsaw.2)
  | retry tier hpc =>
    refine ⟨?_, id⟩
    rcases hpc with ⟨seen, arc, content, v, rfl⟩ | ⟨seen, arc, v, rfl⟩ <;> exact hstands.1
  | compare expected v heq hpromote =>
    exact ⟨trivial, fun hlawful =>
      lawful_store_finish hlawful hc hstands (mayFinish_replaced hpromote) ⟨heq, hpromote⟩⟩
  | plan expected v heq hpromote =>
    exact ⟨⟨hstands, ⟨Nat.le_refl _, fun _ => rfl⟩, heq, hpromote⟩, id⟩
  | failPlan expected v message =>
    exact ⟨trivial, fun hlawful => ⟨legal_fail (fun _ => nofun) nofun hstands, hlawful⟩⟩
  | replace =>
    obtain ⟨hfresh, hsaw, heq, hpromote⟩ := hstands
    exact ⟨trivial, fun hlawful => lawful_store_finish hlawful hc hfresh (mayFinish_replaced hpromote)
      ⟨hsaw.2 rfl ▸ heq, hpromote⟩⟩
  | keep expected v hpc =>
    have hfresh : Fresh (own i c.history) := by
      rcases hpc with rfl | ⟨seen, arc, content, rfl⟩
      · exact hstands
      · exact hstands.1
    exact ⟨trivial, fun hlawful => ⟨⟨hfresh.2, .inr ⟨rfl, hfresh.1⟩⟩, hlawful⟩⟩
  | done =>
    obtain ⟨hopen, ⟨origin, rfl, -⟩, hstored⟩ := hstands
    exact ⟨trivial, fun hlawful => ⟨⟨hopen, mayFinish_origin origin hstored⟩, hlawful⟩⟩
  | notify =>
    obtain ⟨hopen, horigin, k, before, after, watches, hmem, hpromote⟩ := hstands
    refine ⟨?_, fun hlawful => ⟨⟨hopen, trivial⟩, hlawful⟩⟩
    rw [own_notify]
    exact ⟨forall_mem_cons.mpr ⟨rfl, hopen⟩, horigin, k, before, after, watches,
      .tail _ hmem, hpromote⟩
  | failWatch op pending old v e =>
    obtain ⟨hopen, ⟨origin, rfl, horigin⟩, hstored⟩ := hstands
    refine ⟨trivial, fun hlawful => ⟨⟨hopen, ?_⟩, hlawful⟩⟩
    cases origin with
    | resetValue | rtAtomReset => cases horigin
    | _ => exact ⟨v, hstored⟩
  | watch => exact ⟨trivial, id⟩

end Stands

/-! ## Runs -/

section Runs

variable {vals : Values V} {rep : Rep V S} {lax : Prop} {init : S}
  {m : Machine (Op V) (Cell V S) (Pc V S) (Label V)}

/-- The condition on an event. -/
def HeedsAll (vals : Values V) (rep : Rep V S) (s : State (Cell V S) (Pc V S)) :
    Event (Op V) (Label V) → Prop
  | .call _ => True
  | .step i label => ∀ pc, s.calls[i]? = some pc → heeds vals rep s.shared label pc = true

instance (vals : Values V) (rep : Rep V S) (s : State (Cell V S) (Pc V S)) :
    DecidablePred (HeedsAll vals rep s)
  | .call _ => isTrue trivial
  | .step i label =>
    inferInstanceAs (Decidable (∀ pc, s.calls[i]? = some pc → heeds vals rep s.shared label pc = true))

/-- The history is that of the atom and of the calls that were started, and says of each what it has
done. -/
@[grind cases]
structure Recorded (vals : Values V) (rep : Rep V S) (init : S) (s : State (Cell V S) (Pc V S)) : Prop where
  consistent : Consistent init s.shared
  numbered : ∀ e ∈ s.shared.history, e.call < s.calls.length
  each : Each (fun i c pc => pc.Stands vals rep (own i c.history) c) s

theorem Recorded.new (content : S) (validated : Bool) :
    Recorded vals rep content ⟨Cell.new content validated, []⟩ :=
  ⟨rfl, forall_mem_nil _, nofun⟩

variable {s : State (Cell V S) (Pc V S)} {es : List (Event (Op V) (Label V))}

theorem Recorded.own_new (h : Recorded vals rep init s) :
    own s.calls.length s.shared.history = [] := by
  refine filter_eq_nil_iff.mpr fun e he hcall => ?_
  grind

theorem Recorded.step
    (hnext : ∀ {i label c pc next}, m.next i label c pc = some next → Step vals rep i label c pc next)
    (hstart : ∀ op c, (m.start op).Stands vals rep [] c) {s' : State (Cell V S) (Pc V S)}
    {e : Event (Op V) (Label V)} (h : Recorded vals rep init s)
    (hheeds : lax ∨ HeedsAll vals rep s e) (hstep : m.step s e = some s') :
    Recorded vals rep init s' ∧
      (Lawful vals rep lax init s.shared.history → Lawful vals rep lax init s'.shared.history) := by
  have heach : Each (fun i c pc => pc.Stands vals rep (own i c.history) c) s' := by
    refine h.each.step hstep ?_ ?_ ?_
    · intro op _
      rw [h.own_new]
      exact hstart op _
    · intro i label pc c' pc' _ hmove hstands
      have hsound : _ ∧ (Lawful vals rep True init s.shared.history → _) :=
        (hnext hmove).sound h.consistent hstands (.inl trivial)
      exact hsound.1
    · intro i label pc c' pc' k d _ hmove hk _ hstands
      exact hstands.grows (hnext hmove).grows hk
  obtain ⟨op, rfl, rfl⟩ | ⟨i, label, pc, c', pc', rfl, hi, hmove, rfl⟩ := Machine.step_cases hstep
  · refine ⟨⟨h.consistent, fun e he => ?_, heach⟩, id⟩
    grind
  · have hmoved := hnext hmove
    refine ⟨⟨hmoved.grows.consistent init h.consistent, fun e he => ?_, heach⟩, ?_⟩
    · rw [length_set]
      rcases hmoved.grows.entries e he with he | he
      all_goals grind
    · exact (hmoved.sound h.consistent (h.each i pc hi) (hheeds.imp_right fun h => h pc hi)).2

theorem lawful_of_meets
    (hnext : ∀ {i label c pc next}, m.next i label c pc = some next → Step vals rep i label c pc next)
    (hstart : ∀ op c, (m.start op).Stands vals rep [] c) {content : S} {validated : Bool}
    (hmeets : m.Meets (fun s e => lax ∨ HeedsAll vals rep s e) ⟨.new content validated, []⟩ es)
    (hrun : m.run ⟨.new content validated, []⟩ es = some s) :
    Lawful vals rep lax content s.shared.history := by
  refine (Machine.run_invariant_of_meets (I := fun s => Recorded vals rep content s ∧
    Lawful vals rep lax content s.shared.history) ?_ ⟨Recorded.new content validated, trivial⟩
    hmeets hrun).2
  intro s1 e s2 h hheeds hstep
  have hnext := h.1.step hnext hstart hheeds hstep
  exact ⟨hnext.1, hnext.2 h.2⟩

theorem fresh_nil : Fresh ([] : List (Entry V S)) := ⟨forall_mem_nil _, forall_mem_nil _⟩

theorem localStart_stands (op : Op V) (c : Cell V V) : op.localStart.Stands vals .plain [] c := by
  cases op with
  | reset => exact ⟨fresh_nil, trivial, rfl⟩
  | resetValue | rtAtomReset => exact ⟨fresh_nil, trivial⟩
  | addWatch | removeWatch => trivial
  | _ => exact fresh_nil

theorem sharedStart_stands (op : Op V) (c : Cell V S) : op.sharedStart.Stands vals rep [] c := by
  cases op with
  | reset | resetValue | rtAtomReset => exact ⟨fresh_nil, trivial⟩
  | addWatch | removeWatch => trivial
  | _ => exact fresh_nil

theorem meets_lax (es : List (Event (Op V) (Label V))) (s : State (Cell V S) (Pc V S)) :
    m.Meets (fun s e => True ∨ HeedsAll vals rep s e) s es :=
  (Machine.meets_congr (fun _ _ => iff_of_true (.inl trivial) trivial) es s).mpr (Machine.meets_true es s)

theorem meets_strict (h : m.Meets (HeedsAll vals rep) s es) :
    m.Meets (fun s e => False ∨ HeedsAll vals rep s e) s es :=
  (Machine.meets_congr (fun _ _ => or_iff_right not_false) es s).mpr h

/-! ### Shared atoms in lowered code -/

/-- The call is neither the `swap!` of `clojure.core` nor that of compiled code. -/
def Pc.Native : Pc V S → Prop
  | .loading tier | .applying tier _ _ | .exchanging tier _ _ _ _ => tier = .lowered
  | .publishing origin _ => ∀ arc, origin.undisturbed arc = true
  | .committing _ _ | .matching _ _ _ => False
  | _ => True

theorem Pc.Native.heeds (h : pc.Native) (c : Cell V S) : heeds vals rep c label pc = true := by
  cases pc with
  | publishing origin v =>
    rw [Atom.heeds, h c.arc, Bool.or_true]
  | applying =>
    cases h
    rfl
  | committing | matching => cases h
  | _ => rfl

theorem Pc.Native.sharedNext
    (h : pc.Native) (hnext : sharedNext vals rep i label c pc = some next) :
    next.2.Native := by
  unfold Atom.sharedNext at hnext
  split at hnext <;> (try split at hnext) <;> (try split at hnext) <;> cases hnext
  all_goals trivial

theorem meets_of_native (h : ∀ e ∈ es, e ≠ .call .swapFn ∧ e ≠ .call .rtAtomSwap)
    (content : S) : (sharedAtom vals rep).Meets (HeedsAll vals rep) ⟨.new content false, []⟩ es := by
  refine Machine.meets_of_invariant (I := Each fun _ _ pc => pc.Native) ?_ ?_ nofun h
  · intro s e hs
    cases e with
    | call op => trivial
    | step i => exact fun pc hpc => (hs i pc hpc).heeds _
  · intro s e s' hs hallowed hstep
    refine hs.step hstep ?_ (fun _ hmove hnative => hnative.sharedNext hmove) fun _ _ _ _ => id
    rintro op rfl
    cases op with
    | swapFn => exact absurd rfl hallowed.1
    | rtAtomSwap => exact absurd rfl hallowed.2
    | addWatch | removeWatch | compareAndSet => trivial
    | swap => rfl
    | _ => exact fun _ => rfl

end Runs

inductive Sample where
  | nil
  | bool (b : Bool)
  | num (n : Nat)
  | str (s : String)
  | keyword (name : String)
  | atom
  deriving DecidableEq

def sampleValues : Values Sample where
  eq a b := a == b
  nil := .nil
  bool := .bool
  str := .str
  keywordName
    | .keyword name => some name
    | _ => none
  isNilOrMap v := v == .nil
  self := .atom

def sampleRep : Rep Sample Sample where
  promote
    | .atom => .error "value of type 'shared-atom' cannot be promoted to a shared-atom"
    | v => .ok v
  demote := id

/-- Two `swap!` of lowered code that both have seen 0: the second one loses the race, and starts again. -/
def race : List (Event (Op Sample) (Label Sample)) :=
  [.call .swap, .call .swap, .step 0 .go, .step 1 .go, .step 0 (.answer (.ok (.num 1))), .step 0 .go,
    .step 1 (.answer (.ok (.num 1))), .step 1 .go, .step 1 .go, .step 1 (.answer (.ok (.num 2))),
    .step 1 .go]

def alone : List (Event (Op Sample) (Label Sample)) :=
  [.call .swap, .step 0 .go, .step 0 (.answer (.ok (.num 1))), .step 0 .go, .step 0 .go]

/-- A function of `swap!` that itself resets the atom to 10: the update of `reset!` is lost. -/
def nested : List (Event (Op Sample) (Label Sample)) :=
  [.call .swap, .step 0 .go, .call (.reset (.num 10)), .step 1 .go, .step 1 .go, .step 1 .go,
    .step 0 (.answer (.ok (.num 1))), .step 0 .go, .step 0 .go]

/-- The race with the `swap!` of `clojure.core`. -/
def raceFn : List (Event (Op Sample) (Label Sample)) :=
  [.call .swapFn, .call .swapFn, .step 0 .go, .step 1 .go, .step 0 (.answer (.ok (.num 1))), .step 0 .go,
    .step 1 (.answer (.ok (.num 1))), .step 1 .go]

/-- A function that fails in compiled code. -/
def swallowed : List (Event (Op Sample) (Label Sample)) :=
  [.call .rtAtomSwap, .step 0 .go, .step 0 (.answer (.error (.other "Divide by zero")))]

end Clojurust.Atom
