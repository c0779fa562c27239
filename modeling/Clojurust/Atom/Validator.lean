import Clojurust.Atom.Atomic

/-!
# Validators and watches of atoms

* `Accepts`, `Judges` — what a validator accepts that is a function of the value alone;
* `held`, `Guards` — the values that an atom has held, and the condition on the writers that do not ask
  the validator;
* `notes`, `Says` — what the watches are told, and which old value;
* `atom_validator_iff` — when the values are accepted and the watches told.
-/

namespace Clojurust.Atom

open Interleaving Future List

variable {V : Type}

/-! ## Validators -/

section Validator

variable (vals : Values V) (answer : V → Except (EvalError V) V)

/-- The validator, given by its answers, accepts a value. -/
def Accepts (v : V) : Prop := ∃ a, answer v = .ok a ∧ vals.falsy a = false

/-- An answer to a call that asks the validator is that of the validator. -/
def Pc.Judges (r : Except (EvalError V) V) : Pc V V → Prop
  | .validating _ v => r = answer v
  | _ => True

/-- The validator answers as it does. -/
def Judges (s : State (Cell V V) (Pc V V)) : Event (Op V) (Label V) → Prop
  | .step i (.answer r) => ∀ pc, s.calls[i]? = some pc → pc.Judges answer r
  | _ => True

instance [DecidableEq V] (r : Except (EvalError V) V) : DecidablePred (Pc.Judges answer r)
  | .validating _ v => inferInstanceAs (Decidable (r = answer v))
  | .resetting _ _ | .publishing _ _ | .matching _ _ _ | .loading _ | .applying _ _ _ | .committing _ _
  | .exchanging _ _ _ _ _ | .comparing _ _ | .replacing _ _ _ _ _ | .notifying _ _ _ _ | .watching _ _ _ _
  | .adding _ _ | .removing _ | .returned _ => isTrue trivial

instance [DecidableEq V] (s : State (Cell V V) (Pc V V)) : DecidablePred (Judges answer s)
  | .call _ | .step _ .go => isTrue trivial
  | .step i (.answer r) =>
    inferInstanceAs (Decidable (∀ pc, s.calls[i]? = some pc → pc.Judges answer r))

/-- The condition on the writers that do not ask the validator: what they store is accepted. -/
def Pc.Guards (c : Cell V V) : Pc V V → Prop
  | .publishing _ v => Accepts vals answer v
  | .matching seen _ v => vals.eq c.content seen = true → Accepts vals answer v
  | .comparing expected v => vals.eq c.content expected = true → Accepts vals answer v
  | _ => True

def Guards (s : State (Cell V V) (Pc V V)) : Event (Op V) (Label V) → Prop
  | .call _ => True
  | .step i _ => ∀ pc, s.calls[i]? = some pc → pc.Guards vals answer s.shared

instance : DecidablePred (Accepts vals answer) := fun v =>
  match h : answer v with
  | .error _ => isFalse fun ⟨_, ha, _⟩ => nomatch h.symm.trans ha
  | .ok a => decidable_of_iff (vals.falsy a = false)
    ⟨fun hfalsy => ⟨a, h, hfalsy⟩, fun ⟨_, ha, hfalsy⟩ => Except.ok.inj (h.symm.trans ha) ▸ hfalsy⟩

instance (c : Cell V V) : DecidablePred (Pc.Guards vals answer c)
  | .publishing _ v => inferInstanceAs (Decidable (Accepts vals answer v))
  | .comparing w v | .matching w _ v =>
    inferInstanceAs (Decidable (vals.eq c.content w = true → Accepts vals answer v))
  | .resetting _ _ | .loading _ | .applying _ _ _ | .validating _ _ | .committing _ _
  | .exchanging _ _ _ _ _ | .replacing _ _ _ _ _ | .notifying _ _ _ _ | .watching _ _ _ _ | .adding _ _
  | .removing _ | .returned _ => isTrue trivial

instance (s : State (Cell V V) (Pc V V)) : DecidablePred (Guards vals answer s)
  | .call _ => isTrue trivial
  | .step i _ => inferInstanceAs (Decidable (∀ pc, s.calls[i]? = some pc → pc.Guards vals answer s.shared))

/-- The values that an atom has held. -/
def held (init : V) : List (Entry V V) → List V
  | [] => [init]
  | .store _ _ _ after _ :: past => after :: held init past
  | _ :: past => held init past

theorem current_mem_held (init : V) : ∀ history : List (Entry V V), current init history ∈ held init history
  | [] => mem_singleton_self init
  | .store _ _ _ _ _ :: _ => (.head _)
  | .apply _ _ _ :: past | .notify _ _ _ _ :: past | .finish _ _ _ :: past => current_mem_held init past

/-- About to store means accepted. -/
def Pc.Accepted : Pc V V → Prop
  | .committing _ v => Accepts vals answer v
  | _ => True

variable {vals answer}

theorem localNext_held (init : V) {i : Nat} {label : Label V} {c : Cell V V} {pc : Pc V V}
    {next : Cell V V × Pc V V}
    (h : localNext vals i label c pc = some next) (hvalidated : c.validated = true)
    (hjudges : ∀ r origin v, label = .answer r → pc = .validating origin v → r = answer v)
    (haccepted : pc.Accepted vals answer) :
    next.1.validated = true ∧ next.2.Accepted vals answer ∧
      ((∀ v ∈ held init next.1.history, Accepts vals answer v) ↔
        (∀ v ∈ held init c.history, Accepts vals answer v) ∧ pc.Guards vals answer c) := by
  have hstore : ∀ (op : Op V) (v : V), (∀ w ∈ held init (c.store i op v).history, Accepts vals answer w) ↔
      (∀ w ∈ held init c.history, Accepts vals answer w) ∧ Accepts vals answer v :=
    fun _ _ => forall_mem_cons.trans and_comm
  unfold localNext Cell.validate at h
  split at h <;> (try split at h) <;> cases h
  -- most steps store nothing
  all_goals first
    | exact ⟨hvalidated, trivial, (and_iff_left trivial).symm⟩
    | exact absurd hvalidated ‹_›
    | skip
  case h_2.refl origin v => exact ⟨hvalidated, trivial, hstore (origin.op v) v⟩
  case h_8.isTrue.refl seen arc v heq =>
    refine ⟨hvalidated, trivial, (hstore .rtAtomSwap v).trans ?_⟩
    exact and_congr_right fun _ => ⟨fun haccepts _ => haccepts, fun hguards => hguards heq⟩
  case h_8.isFalse.refl seen arc v hne =>
    exact ⟨hvalidated, trivial, (and_iff_left fun heq => absurd heq hne).symm⟩
  case h_10.isFalse.refl a origin v ha =>
    refine ⟨hvalidated, ⟨a, ?_, Bool.eq_false_iff.mpr ha⟩, (and_iff_left trivial).symm⟩
    exact (hjudges _ _ _ rfl rfl).symm
  case h_11.refl origin v =>
    refine ⟨hvalidated, trivial, (hstore (origin.op v) v).trans ?_⟩
    exact and_congr_right fun _ => iff_of_true haccepted trivial
  case h_16.isTrue.refl expected v heq =>
    refine ⟨hvalidated, trivial, (hstore (.compareAndSet expected v) v).trans ?_⟩
    exact and_congr_right fun _ => ⟨fun haccepts _ => haccepts, fun hguards => hguards heq⟩
  case h_16.isFalse.refl expected v hne =>
    exact ⟨hvalidated, trivial, (and_iff_left fun heq => absurd heq hne).symm⟩

end Validator

/-! ## Watches -/

section Watches

/-- A watch that is called, with the old and the new value. -/
def Entry.note? : Entry V V → Option (Watch V × V × V)
  | notify _ watch old new => some (watch, old, new)
  | _ => none

/-- The watches that a call has called, in order. -/
def notes (mine : List (Entry V V)) : List (Watch V × V × V) := (mine.filterMap Entry.note?).reverse

/-- The old value that a call tells: `reset!` the one right before its store, `swap!` the one that its
function was applied to. The other writers tell none. -/
def Says (mine : List (Entry V V)) (before old : V) : Op V → Prop
  | .reset _ | .swapFn => old = before
  | .swap => ∃ r, mine.findSome? Entry.answer? = some (old, r)
  | _ => False

/-- Nothing is stored, nobody told. -/
def Quiet (mine : List (Entry V V)) : Prop := Untouched mine ∧ notes mine = []

/-- The call has stored, and told some of the watches; the others are pending. -/
def Telling (mine : List (Entry V V)) (op : Op V) (pending : List (Watch V)) (old v : V) : Prop :=
  ∃ i before watches told, (∀ e ∈ mine, e.isStore = true → e = .store i op before v watches) ∧
    watches = told ++ pending ∧ notes mine = told.map (fun w => (w, old, v)) ∧ Says mine before old op

/-- For every store, all watches were told, or none by a writer that tells none. -/
def Reported (mine : List (Entry V V)) : Prop :=
  ∀ i op before after watches, .store i op before after watches ∈ mine →
    (∃ old, Says mine before old op ∧ notes mine = watches.map fun w => (w, old, after)) ∨
      ((∀ old, ¬ Says mine before old op) ∧ notes mine = [])

/-- What a call has told, by where it stands. -/
def Pc.Tells (mine : List (Entry V V)) : Pc V V → Prop
  | .notifying op pending old v | .watching op pending old v => Telling mine op pending old v
  -- the writers that store and return tell nobody
  | .publishing origin v => Quiet mine ∧ ∀ mine before old, ¬ Says mine before old (origin.op v)
  | .returned (.ok _) => Reported mine
  | .returned (.error _) => True
  | _ => Quiet mine

variable {mine : List (Entry V V)} {e : Entry V V}

theorem notes_cons (e : Entry V V) (mine : List (Entry V V)) :
    notes (e :: mine) = notes mine ++ e.note?.toList := by
  rw [notes, notes, filterMap_cons]
  grind

theorem Quiet.cons (h : Quiet mine) (hstore : e.isStore = false) (hnote : e.note? = none) :
    Quiet (e :: mine) := by
  refine ⟨forall_mem_cons.mpr ⟨hstore, h.1⟩, ?_⟩
  rw [notes_cons, h.2, hnote]
  rfl

theorem Quiet.reported (h : Quiet mine) : Reported mine := by
  intro i op before after watches hmem
  exact absurd (h.1 _ hmem) Bool.noConfusion

theorem Reported.finish (h : Reported mine) (i : Nat) (op : Op V) (outcome : Except (Failure V) V) :
    Reported (.finish i op outcome :: mine) := by
  intro k op' before after watches hmem
  rcases mem_cons.mp hmem with heq | hmem
  · cases heq
  · exact h k op' before after watches hmem

theorem Quiet.store (h : Quiet mine) (i : Nat) (op : Op V) (before after : V) (watches : List (Watch V))
    (hop : ∀ mine : List (Entry V V), ∀ old, ¬ Says mine before old op) :
    Reported (.store i op before after watches :: mine) := by
  intro k op' before' after' watches' hmem
  rcases mem_cons.mp hmem with heq | hmem
  · cases heq
    refine .inr ⟨hop _, ?_⟩
    rw [notes_cons, h.2]
    rfl
  · exact absurd (h.1 _ hmem) Bool.noConfusion

theorem Telling.reported {op : Op V} {old v : V} (h : Telling mine op [] old v) : Reported mine := by
  obtain ⟨i, before, watches, told, honly, hwatches, hnotes, hsays⟩ := h
  intro k op' before' after' watches' hmem
  cases honly _ hmem rfl
  grind

theorem Telling.notify {op : Op V} {watch : Watch V} {pending : List (Watch V)} {old v : V}
    (h : Telling mine op (watch :: pending) old v) (i : Nat) :
    Telling (.notify i watch old v :: mine) op pending old v := by
  obtain ⟨k, before, watches, told, honly, hwatches, hnotes, hsays⟩ := h
  refine ⟨k, before, watches, told ++ [watch], ?_, ?_, ?_, ?_⟩
  · exact forall_mem_cons.mpr ⟨nofun, honly⟩
  · grind
  · rw [notes_cons, hnotes, map_append]
    rfl
  · cases op <;> exact hsays

theorem Quiet.telling (h : Quiet mine) {origin : Origin V} {v : V} {c : Cell V V}
    (hanswered : origin.Answered .plain mine c v) (hasks : origin.asks = true)
    (i : Nat) (before : V) (watches : List (Watch V)) :
    Telling (.store i (origin.op v) before v watches :: mine) (origin.op v) watches (origin.old before) v := by
  refine ⟨i, before, watches, [], ?_, rfl, ?_, ?_⟩
  · refine forall_mem_cons.mpr ⟨fun _ => rfl, fun e he hstore => ?_⟩
    exact absurd (hstore.symm.trans (h.1 e he)) Bool.noConfusion
  · rw [notes_cons, h.2]
    rfl
  · cases origin with
    | reset | swapFn => rfl
    | swap => exact ⟨_, hanswered.1⟩
    | resetValue | rtAtomReset => cases hasks

theorem Quiet.fail {vals : Values V} {i : Nat} {c : Cell V V} (h : Quiet (own i c.history)) (op : Op V)
    (f : Failure V) : (c.fail i vals op f).2.Tells (own i (c.fail i vals op f).1.history) := by
  rw [Cell.fail, own_finish]
  cases op with
  | rtAtomReset | rtAtomSwap => exact h.reported.finish _ _ _
  | _ => trivial

theorem Pc.tells_fail {vals : Values V} {i : Nat} {c : Cell V V} {origin : Origin V} {v : V}
    {f : Failure V} (h : origin.asks = true) :
    (c.fail i vals (origin.op v) f).2.Tells (own i (c.fail i vals (origin.op v) f).1.history) := by
  cases origin with
  | resetValue | rtAtomReset => cases h
  | _ => trivial

theorem localNext_tells {vals : Values V} {i : Nat} {label : Label V} {c : Cell V V} {pc : Pc V V}
    {next : Cell V V × Pc V V} (h : localNext vals i label c pc = some next)
    (hstands : pc.Stands vals .plain (own i c.history) c) (htells : pc.Tells (own i c.history)) :
    next.2.Tells (own i next.1.history) := by
  unfold localNext Cell.validate at h
  split at h <;> (try split at h) <;> cases h
  all_goals
    try simp only [Cell.finish, own_finish, own_store, own_apply, own_notify]
    first
      | exact htells
      | trivial
      | exact htells.fail _ _
      | exact (own_apply (c := c) _ _ ▸ htells.cons rfl rfl : Quiet (own i (c.record _).history)).fail _ _
      | exact htells.cons rfl rfl
      | exact (htells.1.store _ _ _ _ _ fun _ _ => htells.2 _ _ _).finish _ _ _
      | exact (htells.store _ _ _ _ _ fun _ _ => id).finish _ _ _
      | exact htells.telling hstands.2.1 hstands.2.2 _ _ _
      | exact htells.reported.finish _ _ _
      | exact htells.notify _
      | exact htells.reported
      | obtain ⟨-, ⟨origin, rfl, hasks⟩, -⟩ := hstands
        exact Pc.tells_fail hasks

end Watches

/-! ## Atoms with a validator -/

section Main

variable {vals : Values V}

theorem accepts_of_handleAtomCall {apply : V → V → Except (EvalError V) V} {initial validator : V}
    {args : List V} {options : Options V} {c : Cell V V}
    (h : handleAtomCall vals apply initial args = .ok (options, c))
    (hvalidator : options.validator = some validator) :
    c = .new initial true ∧ Accepts vals (apply validator) initial := by
  unfold handleAtomCall at h
  dsimp only at h
  split at h
  · cases h
  · split at h
    · grind
    · rename_i validator' hsome
      split at h
      · cases h
      · rename_i a ha
        split at h
        · cases h
        · rename_i hfalsy
          cases h
          cases hsome.symm.trans hvalidator
          exact ⟨rfl, a, ha, Bool.eq_false_iff.mpr hfalsy⟩

/-- All calls on an atom with a validator that are about to store have asked it. -/
def Asked (vals : Values V) (answer : V → Except (EvalError V) V) (s : State (Cell V V) (Pc V V)) : Prop :=
  s.shared.validated = true ∧ Each (fun _ _ pc => pc.Accepted vals answer) s

variable {s s' : State (Cell V V) (Pc V V)} {e : Event (Op V) (Label V)}

theorem Asked.step {answer : V → Except (EvalError V) V} {init : V}
    (h : Asked vals answer s) (hjudges : Judges answer s e)
    (hstep : (localAtom vals).step s e = some s') :
    Asked vals answer s' ∧ ((∀ v ∈ held init s'.shared.history, Accepts vals answer v) ↔
      (∀ v ∈ held init s.shared.history, Accepts vals answer v) ∧ Guards vals answer s e) := by
  obtain ⟨op, rfl, rfl⟩ | ⟨i, label, pc, c', pc', rfl, hi, hmove, rfl⟩ := Machine.step_cases hstep
  · refine ⟨⟨h.1, fun k pc hk => ?_⟩, (and_iff_left trivial).symm⟩
    rcases getElem?_append_cases hk with ⟨-, rfl⟩ | hk
    · cases op <;> trivial
    · exact h.2 k pc hk
  · have hanswer : ∀ r origin v, label = .answer r → pc = .validating origin v → r = answer v := by
      rintro r origin v rfl rfl
      exact hjudges _ hi
    obtain ⟨hvalidated, haccepted, hiff⟩ := localNext_held init hmove h.1 hanswer (h.2 i pc hi)
    refine ⟨⟨hvalidated, fun k pc1 hk => ?_⟩, hiff.trans (and_congr_right fun _ => ?_)⟩
    · rcases getElem?_set_cases hk with ⟨-, rfl⟩ | ⟨-, hk⟩
      · exact haccepted
      · exact h.2 k pc1 hk
    · exact (forall_at_iff hi).symm

theorem Recorded.tells_step {init : V}
    (h : Recorded vals .plain init s) (htells : Each (fun i c pc => pc.Tells (own i c.history)) s)
    (hstep : (localAtom vals).step s e = some s') :
    Each (fun i c pc => pc.Tells (own i c.history)) s' := by
  refine htells.step hstep ?_ ?_ ?_
  · intro op _
    rw [h.own_new]
    have hquiet : Quiet ([] : List (Entry V V)) := ⟨forall_mem_nil _, rfl⟩
    cases op with
    | resetValue | rtAtomReset => exact ⟨hquiet, fun _ _ _ => id⟩
    | _ => exact hquiet
  · intro i label pc c' pc' hi hmove hpc
    exact localNext_tells hmove (h.each i pc hi) hpc
  · intro i label pc c' pc' k d _ hmove hk _ hd
    rwa [(localNext_step hmove).grows.own k hk]

theorem Reported.notes_iff {mine : List (Entry V V)} (h : Reported mine) {i : Nat} {op : Op V}
    {before after : V} {watches : List (Watch V)} (hmem : .store i op before after watches ∈ mine) :
    notes mine = watches.map (fun w => (w, before, after)) ↔ watches = [] ∨ Says mine before before op := by
  rcases h i op before after watches hmem with ⟨old, hsays, hnotes⟩ | ⟨hsilent, hnotes⟩
  · constructor
    · intro heq
      cases watches with
      | nil => exact .inl rfl
      | cons => grind
    · rintro (rfl | hbefore)
      · exact hnotes
      · have hold : old = before := by
          cases op with
          | reset | swapFn => exact hsays
          | swap =>
            obtain ⟨r, hr⟩ := hsays
            obtain ⟨r', hr'⟩ := hbefore
            grind
          | _ => exact absurd hsays id
        rw [hnotes, hold]
  · rw [hnotes, eq_comm, map_eq_nil_iff]
    exact (or_iff_left (hsilent before)).symm

end Main

/-! ## A positive number -/

/-- `(atom 1 :validator pos?)`, where every function answers like `pos?`. -/
def positive (_ v : Sample) : Except (EvalError Sample) Sample :=
  match v with
  | .num n => .ok (.bool (0 < n))
  | _ => .error (.other "wrong type")

def positiveArgs : List Sample := [.keyword "validator", .atom]

/-- A watch, and `(reset! a 2)`. -/
def resetRun : List (Event (Op Sample) (Label Sample)) :=
  [.call (.addWatch (.num 7) .nil), .step 0 .go, .call (.reset (.num 2)), .step 1 .go,
    .step 1 (.answer (.ok (.bool true))), .step 1 .go, .step 1 .go, .step 1 (.answer (.ok .nil)), .step 1 .go]

/-- A watch, and a call that is over after one step, such as `(compare-and-set! a 1 0)`. -/
def storeRun (op : Op Sample) : List (Event (Op Sample) (Label Sample)) :=
  [.call (.addWatch (.num 7) .nil), .step 0 .go, .call op, .step 1 .go]

/-- A watch, and a `swap!` whose function resets the atom to 10 before it answers 2. -/
def nestedRun : List (Event (Op Sample) (Label Sample)) :=
  [.call (.addWatch (.num 7) .nil), .step 0 .go, .call .swap, .step 1 .go, .call (.reset (.num 10)),
    .step 2 .go, .step 2 (.answer (.ok (.bool true))), .step 2 .go, .step 2 .go, .step 2 (.answer (.ok .nil)),
    .step 2 .go, .step 1 (.answer (.ok (.num 2))), .step 1 (.answer (.ok (.bool true))), .step 1 .go,
    .step 1 .go, .step 1 (.answer (.ok .nil)), .step 1 .go]

end Clojurust.Atom
