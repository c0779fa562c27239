import Mathlib.Logic.Function.Basic

/-!
# Registries

Entries are registered for keys and removed again. What counts is the latest action for a key, where
keys are compared by a relation of their own.

* `latest` — what the latest action for a key left;
* `store`, `stored` — a table by a code of the keys; `stored_eq` — it holds what was left latest for the
  code;
* `select_iff` — with a fallback, the table answers by the relation exactly if the code tells the keys
  apart as the relation does.
-/

namespace Registry

open List

variable {α κ ι : Type}

inductive Action (α ι : Type) where
  | register (key : α) (entry : ι)
  | remove (key : α)

namespace Action

def key : Action α ι → α
  | register key _ | remove key => key

/-- What the action leaves for its key. -/
def entry : Action α ι → Option ι
  | register _ entry => some entry
  | remove _ => none

end Action

/-- What the latest action for one of the keys left. -/
def latest (same : α → Bool) : List (Action α ι) → Option ι
  | [] => none
  | action :: actions =>
    if actions.any (fun later => same later.key) then latest same actions
    else if same action.key then action.entry else none

section Store

variable [DecidableEq κ] (code : α → κ)

/-- A table with one entry for each code. -/
def store (table : κ → Option ι) (action : Action α ι) : κ → Option ι :=
  Function.update table (code action.key) action.entry

def stored (actions : List (Action α ι)) : κ → Option ι :=
  actions.foldl (store code) fun _ => none

theorem foldl_store (k : κ) : ∀ (actions : List (Action α ι)) (table : κ → Option ι),
    actions.foldl (store code) table k = if actions.any (fun action => code action.key == k)
      then latest (fun key => code key == k) actions else table k
  | [], table => rfl
  | action :: actions, table => by
    rw [foldl_cons, foldl_store k actions, latest, any_cons]
    cases hlater : actions.any fun later => code later.key == k with
    | true => simp
    | false =>
      rw [Bool.or_false, if_neg Bool.false_ne_true, if_neg Bool.false_ne_true, store]
      grind

theorem latest_of_not_any {same : α → Bool} : ∀ {actions : List (Action α ι)},
    actions.any (fun action => same action.key) = false → latest same actions = none
  | [], _ => rfl
  | action :: actions, h => by
    rw [any_cons, Bool.or_eq_false_iff] at h
    rw [latest, h.1, h.2]
    rfl

theorem stored_eq (actions : List (Action α ι)) (k : κ) :
    stored code actions k = latest (fun key => code key == k) actions := by
  rw [stored, foldl_store]
  split
  · rfl
  · rename_i hnone
    exact (latest_of_not_any (Bool.eq_false_iff.mpr hnone)).symm

end Store

theorem latest_congr {same same' : α → Bool} : ∀ {actions : List (Action α ι)},
    (∀ action ∈ actions, same action.key = same' action.key) → latest same actions = latest same' actions
  | [], _ => rfl
  | action :: actions, h => by
    rw [forall_mem_cons] at h
    have hany : actions.any (fun later => same later.key) = actions.any fun later => same' later.key := by
      rw [Bool.eq_iff_iff, any_eq_true, any_eq_true]
      exact exists_congr fun later => and_congr_right fun hlater => by rw [h.2 later hlater]
    rw [latest, latest, h.1, hany, latest_congr h.2]

theorem latest_pair (same : α → Bool) (a : α) {b : α} (hb : same b = true) (x y : ι) :
    latest same [.register b x, .register a y] = some (if same a then y else x) := by
  have hkeys : (Action.register a y : Action α ι).key = a ∧ (Action.register b x : Action α ι).key = b :=
    ⟨rfl, rfl⟩
  rw [latest, latest, any_cons, any_nil, hkeys.1, hkeys.2, hb]
  cases same a <;> rfl

/-! ## Choosing -/

/-- The entry of a code, or else the one of another. -/
def select (table : κ → Option ι) (fallback k : κ) : Option ι := (table k).or (table fallback)

/-- The entry for a key by the relation, or else the one for another key. -/
def chosen (same : α → α → Bool) (fallback : α) (actions : List (Action α ι)) (key : α) : Option ι :=
  (latest (fun k => same k key) actions).or (latest (fun k => same k fallback) actions)

variable [DecidableEq κ] {code : α → κ} {same : α → α → Bool} {S : Set α} {fallback : α}

theorem latest_single (same : α → Bool) (a : α) (x : ι) :
    latest same [.register a x] = if same a then some x else none := rfl

theorem select_iff (hfallback : fallback ∈ S)
    (hself : ∀ a ∈ S, same a fallback = true → same a a = true) {x y : ι} (hxy : x ≠ y) :
    (∀ actions : List (Action α ι), (∀ action ∈ actions, action.key ∈ S) → ∀ key ∈ S,
        select (stored code actions) (code fallback) (code key) = chosen same fallback actions key) ↔
      ∀ a ∈ S, ∀ b ∈ S, (code a = code b ↔ same a b = true) := by
  constructor
  · intro h a ha b hb
    -- the table has an entry that was registered for the very key
    have hrefl : ∀ c ∈ S, same c c = true := by
      intro c hc
      have hone := h [.register c x] (forall_mem_singleton.mpr hc) c hc
      have hfound : latest (fun k => code k == code c) [.register c x] = some x := by
        rw [latest_single, if_pos (beq_self_eq_true (code c))]
      rw [select, chosen, stored_eq, hfound, latest_single, latest_single, Option.some_or] at hone
      by_contra hnot
      rw [if_neg hnot, Option.none_or] at hone
      by_cases hdefault : same c fallback = true
      · exact hnot (hself c hc hdefault)
      · grind
    -- of two registrations the later one is for `a`
    have hboth := h [.register b x, .register a y]
      (forall_mem_cons.mpr ⟨hb, forall_mem_singleton.mpr ha⟩) b hb
    have hstored := latest_pair (fun k => code k == code b) a (beq_self_eq_true (code b)) x y
    have hlatest := latest_pair (fun k => same k b) a (hrefl b hb) x y
    rw [select, chosen, stored_eq, hstored, hlatest, Option.some_or, Option.some_or,
      Option.some.injEq] at hboth
    grind
  · intro h actions hactions key hkey
    have hcode : ∀ b ∈ S, latest (fun k => code k == code b) actions = latest (fun k => same k b) actions := by
      intro b hb
      refine latest_congr fun action haction => ?_
      rw [Bool.eq_iff_iff, beq_iff_eq]
      exact h _ (hactions action haction) b hb
    rw [select, chosen, stored_eq, stored_eq, hcode key hkey, hcode fallback hfallback]

end Registry
