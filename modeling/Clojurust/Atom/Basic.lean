import Clojurust.Future.Basic

/-!
# Atoms

`Atom` and `SharedAtom` (`crates/cljrs-value/src/types.rs`, `shared.rs`) with all their writers:
`reset!`, `swap!` and `compare-and-set!` as the evaluators call them
(`crates/cljrs-interp/src/apply.rs`), `reset!` as a function value and `compare-and-set!`
(`crates/cljrs-builtins/src/builtins.rs`), the `swap!` that `clojure.core` defines by `reset!`
(`bootstrap.cljrs`), and `rt_atom_reset` and `rt_atom_swap`, which compiled code calls
(`crates/cljrs-compiler/src/rt_abi.rs`).

Update functions, validators and watches are code of the user, which may do anything while it runs, also
to the same atom: its answers are labels, and what it does to the atom is the steps of other calls in
between. The calls of several isolates on a shared atom interleave in the same way. Left out are the
copies to the heap that stores make of values in regions, metadata, and `deref`, which changes nothing.

* `Values`, `Rep` — what atoms need to know of values, and how a shared atom holds them;
* `Cell`, `Entry` — an atom with its history, which no step reads;
* `Pc`, `localNext`, `sharedNext` — where a call stands, and its next step;
* `localAtom`, `sharedAtom` — all calls on one atom;
* `handleAtomCall` — how an atom is made.
-/

namespace Clojurust.Atom

open Interleaving Future

variable {V S : Type}

/-! ## Values -/

/-- What atoms need to know of values. -/
structure Values (V : Type) where
  eq : V → V → Bool
  nil : V
  bool : Bool → V
  str : String → V
  /-- the name of a keyword, without its namespace -/
  keywordName : V → Option String
  isNilOrMap : V → Bool
  /-- the atom itself -/
  self : V

def Values.falsy (vals : Values V) (v : V) : Bool := vals.eq v vals.nil || vals.eq v (vals.bool false)

/-- `promote`, which refuses with a message, and `demote`. -/
structure Rep (V S : Type) where
  promote : V → Except String S
  demote : S → V

/-- A local atom holds its values as they are. -/
def Rep.plain : Rep V V := ⟨.ok, id⟩

/-! ## Calls -/

/-- The calls on an atom: `reset!`, `reset!` as a function value, `swap!` in lowered code, the `swap!` of
`clojure.core`, `reset!` and `swap!` in compiled code, `compare-and-set!`, `add-watch` and
`remove-watch`. -/
inductive Op (V : Type) where
  | reset (v : V)
  | resetValue (v : V)
  | swap
  | swapFn
  | rtAtomReset (v : V)
  | rtAtomSwap
  | compareAndSet (expected v : V)
  | addWatch (key f : V)
  | removeWatch (key : V)

/-- A key and a function. -/
abbrev Watch (V : Type) := V × V

/-- Why a call fails. -/
inductive Failure (V : Type) where
  | update (e : EvalError V)
  | validator (e : EvalError V)
  | invalid
  | promotion (message : String)
  | watch (e : EvalError V)

/-- The error that the call raises. -/
def Failure.raised (vals : Values V) : Failure V → EvalError V
  | .update e | .validator e => e
  | .invalid => .thrown (vals.str "Invalid value for atom")
  | .promotion message => .other message
  | .watch e => e

/-- What happens on an atom: an update function has answered, a value is stored over another while some
watches are registered, a watch is called, and a call is over. -/
inductive Entry (V S : Type) where
  | apply (i : Nat) (argument : V) (answer : Except (EvalError V) V)
  | store (i : Nat) (op : Op V) (before after : S) (watches : List (Watch V))
  | notify (i : Nat) (watch : Watch V) (old new : V)
  | finish (i : Nat) (op : Op V) (outcome : Except (Failure V) V)

/-- What a failed call gives: compiled code turns every error into nil. -/
def Op.failed (vals : Values V) (f : Failure V) : Op V → Except (Failure V) V
  | rtAtomReset _ | rtAtomSwap => .ok vals.nil
  | _ => .error f

/-- The three implementations of `swap!`. -/
inductive Tier where
  | lowered
  | core
  | compiled

def Tier.op : Tier → Op V
  | lowered => .swap
  | core => .swapFn
  | compiled => .rtAtomSwap

/-- Where a new value comes from: one of the `reset!`, or a `swap!` that has seen a value, and the object
that held it. -/
inductive Origin (V : Type) where
  | reset
  | resetValue
  | rtAtomReset
  | swap (seen : V) (arc : Nat)
  | swapFn (seen : V) (arc : Nat)

def Origin.op (v : V) : Origin V → Op V
  | .reset => .reset v
  | .resetValue => .resetValue v
  | .rtAtomReset => .rtAtomReset v
  | .swap _ _ => .swap
  | .swapFn _ _ => .swapFn

/-- Whether the validator is asked and the watches are told. -/
def Origin.asks : Origin V → Bool
  | .resetValue | .rtAtomReset => false
  | _ => true

/-- The old value that the watches are told: `swap!` tells the one that it has seen. -/
def Origin.old (content : V) : Origin V → V
  | .swap seen _ => seen
  | _ => content

/-- Where a call stands. -/
inductive Pc (V S : Type) where
  /-- `reset!` on a local atom -/
  | resetting (origin : Origin V) (v : V)
  /-- about to store and return: `builtin_reset_bang`, `rt_atom_reset`, and `reset!` on a shared atom -/
  | publishing (origin : Origin V) (v : V)
  /-- the start of `swap!`, and of every round of its loop -/
  | loading (tier : Tier)
  /-- the update function runs -/
  | applying (tier : Tier) (seen : S) (arc : Nat)
  /-- the validator runs -/
  | validating (origin : Origin V) (v : V)
  /-- about to store -/
  | committing (origin : Origin V) (v : V)
  /-- about to compare and swap, in `swap!` on a shared atom -/
  | exchanging (tier : Tier) (seen : S) (arc : Nat) (content : S) (v : V)
  /-- about to compare the values and store, in the `swap!` of compiled code on a local atom -/
  | matching (seen : S) (arc : Nat) (v : V)
  | comparing (expected v : V)
  /-- about to compare and swap, in `compare-and-set!` on a shared atom -/
  | replacing (expected v : V) (seen : S) (arc : Nat) (content : S)
  /-- about to call the next watch -/
  | notifying (op : Op V) (pending : List (Watch V)) (old v : V)
  /-- a watch runs -/
  | watching (op : Op V) (pending : List (Watch V)) (old v : V)
  | adding (key f : V)
  | removing (key : V)
  | returned (result : Except (EvalError V) V)

/-! ## The atom -/

structure Cell (V S : Type) where
  content : S
  /-- the identity of the object that the atom points to, a new one with every store -/
  arc : Nat
  validated : Bool
  watches : List (Watch V)
  /-- newest first -/
  history : List (Entry V S)

namespace Cell

/-- A new atom. -/
def new (content : S) (validated : Bool) : Cell V S := ⟨content, 0, validated, [], []⟩

variable (c : Cell V S) (i : Nat)

def record (e : Entry V S) : Cell V S := { c with history := e :: c.history }

def store (op : Op V) (after : S) : Cell V S :=
  { c with
    content := after, arc := c.arc + 1, history := .store i op c.content after c.watches :: c.history }

def finish (op : Op V) (v : V) : Cell V S × Pc V S := (c.record (.finish i op (.ok v)), .returned (.ok v))

def fail (vals : Values V) (op : Op V) (f : Failure V) : Cell V S × Pc V S :=
  (c.record (.finish i op (op.failed vals f)),
    .returned ((op.failed vals f).mapError (Failure.raised vals)))

/-- `validate_atom_value` up to the call of the validator. -/
def validate (origin : Origin V) (v : V) : Cell V S × Pc V S :=
  (c, if c.validated then .validating origin v else .committing origin v)

/-- `add_watch_to`. -/
def addWatch (vals : Values V) (key f : V) : Cell V S :=
  { c with
    watches :=
      if c.watches.any fun w => vals.eq w.1 key then
        c.watches.modify (c.watches.findIdx fun w => vals.eq w.1 key) fun w => (w.1, f)
      else c.watches ++ [(key, f)] }

/-- `remove_watch_from`. -/
def removeWatch (vals : Values V) (key : V) : Cell V S :=
  { c with watches := c.watches.filter fun w => !vals.eq w.1 key }

end Cell

/-! ## Steps -/

/-- What a step depends on: the answer of the user's code. -/
inductive Label (V : Type) where
  | go
  | answer (r : Except (EvalError V) V)

section Local

variable (vals : Values V) (i : Nat)

/-- The next step of a call on a local atom. Between the answer of the validator and the end of the store
the source runs no code of the user. -/
def localNext (label : Label V) (c : Cell V V) (pc : Pc V V) : Option (Cell V V × Pc V V) :=
  match label, pc with
  | .go, .resetting origin v => some (c.validate origin v)
  | .go, .publishing origin v => some ((c.store i (origin.op v) v).finish i (origin.op v) v)
  | .go, .loading tier => some (c, .applying tier c.content c.arc)
  | .answer (.error e), .applying tier seen _ =>
    some ((c.record (.apply i seen (.error e))).fail i vals tier.op (.update e))
  | .answer (.ok v), .applying .lowered seen arc =>
    some ((c.record (.apply i seen (.ok v))).validate (.swap seen arc) v)
  | .answer (.ok v), .applying .core seen arc =>
    some (c.record (.apply i seen (.ok v)), .resetting (.swapFn seen arc) v)
  | .answer (.ok v), .applying .compiled seen arc =>
    some (c.record (.apply i seen (.ok v)), .matching seen arc v)
  | .go, .matching seen _ v =>
    if vals.eq c.content seen then some ((c.store i .rtAtomSwap v).finish i .rtAtomSwap v)
    else some (c, .loading .compiled)
  | .answer (.error e), .validating origin v => some (c.fail i vals (origin.op v) (.validator e))
  | .answer (.ok a), .validating origin v =>
    if vals.falsy a then some (c.fail i vals (origin.op v) .invalid) else some (c, .committing origin v)
  | .go, .committing origin v =>
    some (c.store i (origin.op v) v, .notifying (origin.op v) c.watches (origin.old c.content) v)
  | .go, .notifying op [] _ v => some (c.finish i op v)
  | .go, .notifying op (watch :: pending) old v =>
    some (c.record (.notify i watch old v), .watching op pending old v)
  | .answer (.error e), .watching op _ _ _ => some (c.fail i vals op (.watch e))
  | .answer (.ok _), .watching op pending old v => some (c, .notifying op pending old v)
  | .go, .comparing expected v =>
    if vals.eq c.content expected then
      some ((c.store i (.compareAndSet expected v) v).finish i (.compareAndSet expected v) (vals.bool true))
    else some (c.finish i (.compareAndSet expected v) (vals.bool false))
  | .go, .adding key f => some (c.addWatch vals key f, .returned (.ok vals.self))
  | .go, .removing key => some (c.removeWatch vals key, .returned (.ok vals.self))
  | _, _ => none

def Op.localStart : Op V → Pc V V
  | .reset v => .resetting .reset v
  | .resetValue v => .publishing .resetValue v
  | .swap => .loading .lowered
  | .swapFn => .loading .core
  | .rtAtomReset v => .publishing .rtAtomReset v
  | .rtAtomSwap => .loading .compiled
  | .compareAndSet expected v => .comparing expected v
  | .addWatch key f => .adding key f
  | .removeWatch key => .removing key

/-- All calls on a local atom. -/
def localAtom : Machine (Op V) (Cell V V) (Pc V V) (Label V) where
  start := Op.localStart
  next := localNext vals

end Local

section Shared

variable (vals : Values V) (rep : Rep V S) (i : Nat)

/-- The next step of a call on a shared atom. Promotion is no step of its own: it only reads the value. -/
def sharedNext (label : Label V) (c : Cell V S) (pc : Pc V S) : Option (Cell V S × Pc V S) :=
  match label, pc with
  | .go, .publishing origin v =>
    match rep.promote v with
    | .error message => some (c.fail i vals (origin.op v) (.promotion message))
    | .ok content => some ((c.store i (origin.op v) content).finish i (origin.op v) v)
  | .go, .loading tier => some (c, .applying tier c.content c.arc)
  | .answer (.error e), .applying tier seen _ =>
    some ((c.record (.apply i (rep.demote seen) (.error e))).fail i vals tier.op (.update e))
  | .answer (.ok v), .applying .core seen arc =>
    some (c.record (.apply i (rep.demote seen) (.ok v)), .publishing (.swapFn (rep.demote seen) arc) v)
  | .answer (.ok v), .applying tier seen arc =>
    match rep.promote v with
    | .error message =>
      some ((c.record (.apply i (rep.demote seen) (.ok v))).fail i vals tier.op (.promotion message))
    | .ok content =>
      some (c.record (.apply i (rep.demote seen) (.ok v)), .exchanging tier seen arc content v)
  | .go, .exchanging tier _ arc content v =>
    if c.arc = arc then some ((c.store i tier.op content).finish i tier.op v)
    else some (c, .loading tier)
  | .go, .comparing expected v =>
    if vals.eq (rep.demote c.content) expected then
      match rep.promote v with
      | .error message => some (c.fail i vals (.compareAndSet expected v) (.promotion message))
      | .ok content => some (c, .replacing expected v c.content c.arc content)
    else some (c.finish i (.compareAndSet expected v) (vals.bool false))
  | .go, .replacing expected v _ arc content =>
    if c.arc = arc then
      some ((c.store i (.compareAndSet expected v) content).finish i (.compareAndSet expected v)
        (vals.bool true))
    else some (c.finish i (.compareAndSet expected v) (vals.bool false))
  | _, _ => none

/-- A shared atom has no watches. -/
def Op.sharedStart : Op V → Pc V S
  | .reset v => .publishing .reset v
  | .resetValue v => .publishing .resetValue v
  | .swap => .loading .lowered
  | .swapFn => .loading .core
  | .rtAtomReset v => .publishing .rtAtomReset v
  | .rtAtomSwap => .loading .compiled
  | .compareAndSet expected v => .comparing expected v
  | .addWatch _ _ | .removeWatch _ =>
    .returned (.error (.other "wrong type: expected atom, var, or agent, got shared-atom"))

/-- All calls on a shared atom, from any isolates. -/
def sharedAtom : Machine (Op V) (Cell V S) (Pc V S) (Label V) where
  start := Op.sharedStart
  next := sharedNext vals rep

end Shared

/-! ## New atoms -/

section New

variable (vals : Values V)

structure Options (V : Type) where
  metadata : Option V
  validator : Option V

/-- The loop over the options of `atom`: of several values for an option the last one counts, other keys
and a key without a value do not. -/
def parseOptions : List V → Options V → Options V
  | key :: value :: rest, options =>
    parseOptions rest
      (match vals.keywordName key with
      | some "meta" => { options with metadata := some value }
      | some "validator" =>
        { options with validator := if vals.eq value vals.nil then none else some value }
      | _ => options)
  | _, options => options

/-- `handle_atom_call` on evaluated arguments, with the answers of functions given. -/
def handleAtomCall (apply : V → V → Except (EvalError V) V) (initial : V) (args : List V) :
    Except (EvalError V) (Options V × Cell V V) :=
  let options := parseOptions vals args ⟨none, none⟩
  if options.metadata.any fun m => !vals.isNilOrMap m then
    .error (.thrown (vals.str "Atom metadata must be a map or nil"))
  else
    match options.validator with
    | none => .ok (options, .new initial false)
    | some validator =>
      match apply validator initial with
      | .error e => .error e
      | .ok a =>
        if vals.falsy a then .error (.thrown (vals.str "Invalid initial value for atom"))
        else .ok (options, .new initial true)

end New

end Clojurust.Atom
