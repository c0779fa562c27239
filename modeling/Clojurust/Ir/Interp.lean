import Mathlib.Data.List.Basic
import Mathlib.Algebra.Group.Nat.Defs

/-!
# The IR interpreter

Model of the control flow of `crates/cljrs-eval/src/ir_interp.rs` (`interpret_ir_inner`) over the
blocks, phis and terminators of `crates/cljrs-ir/src/lib.rs`.  Values, instructions and the rest
of the runtime (gas, interrupts, garbage collection, on-stack replacement) are those of an
arbitrary `Host`.

* `Registers` — the register file; reading an uninitialised register panics;
* `resolvePhis` — the phis of a block, resolved in place one after the other;
* `step`, `run` — one block, and a number of them.
-/

namespace Clojurust.Ir

/-! ## Functions -/

/-- A variable of an IR function, and its register. -/
structure VarId where
  id : UInt32
  deriving Repr, DecidableEq

structure BlockId where
  id : UInt32
  deriving Repr, DecidableEq

/-- `Inst::Phi(dst, entries)`: the value depends on the predecessor block. -/
structure Phi where
  dst : VarId
  entries : List (BlockId × VarId)
  deriving Repr, DecidableEq

inductive Terminator where
  | jump (target : BlockId)
  | branch (cond : VarId) (thenBlock elseBlock : BlockId)
  | ret (var : VarId)
  | recurJump (target : BlockId) (args : List VarId)
  | unreachable
  deriving Repr, DecidableEq

/-- A basic block over the instructions `ι`. -/
structure Block (ι : Type) where
  id : BlockId
  phis : List Phi
  insts : List ι
  terminator : Terminator

structure IrFunction (ι : Type) where
  params : List VarId
  blocks : List (Block ι)
  nextVar : UInt32

/-- Are block ids dense and sequential? -/
def IrFunction.isIdentity {ι : Type} (f : IrFunction ι) : Bool :=
  f.blocks.zipIdx.all (fun (block, i) => block.id.id.toNat == i)

/-- `table[b.id.0] = i` for every block in turn, from a table of zeros. -/
def IrFunction.tableEntry {ι : Type} (f : IrFunction ι) (bid : BlockId) : Nat :=
  f.blocks.zipIdx.foldl (fun found (block, i) => if block.id = bid then i else found) 0

/-- The index of a block; `none` is an index out of bounds of the table. -/
def IrFunction.resolve {ι : Type} (f : IrFunction ι) (bid : BlockId) : Option Nat :=
  if f.isIdentity then some bid.id.toNat
  else if f.blocks.any (fun block => bid.id ≤ block.id.id) then some (f.tableEntry bid)
  else none

/-! ## Registers -/

/-- The register file; its capacity is a `u32`. -/
@[ext] structure Registers (α : Type) where
  values : List (Option α)
  bounded : values.length < 2 ^ 32

namespace Registers

variable {α : Type}

def new (capacity : UInt32) : Registers α where
  values := List.replicate capacity.toNat none
  bounded := by
    rw [List.length_replicate]
    exact capacity.toNat_lt

/-- `none` is a panic: the register is uninitialised, or there is none. -/
def get (regs : Registers α) (v : VarId) : Option α := (regs.values[v.id.toNat]?).join

/-- There is such a register. -/
def Has (regs : Registers α) (v : VarId) : Prop := v.id.toNat < regs.values.length

instance (regs : Registers α) (v : VarId) : Decidable (regs.Has v) :=
  inferInstanceAs (Decidable (_ < _))

/-- `none` is a panic: there is no such register. -/
def set (regs : Registers α) (v : VarId) (x : α) : Option (Registers α) :=
  if regs.Has v then
    some ⟨regs.values.set v.id.toNat (some x), by rw [List.length_set]; exact regs.bounded⟩
  else none

end Registers

/-! ## Phis -/

/-- The source register for an entry from `prev`: the first one listed. -/
def Phi.source (phi : Phi) (prev : BlockId) : Option VarId :=
  (phi.entries.find? (fun entry => entry.1 == prev)).map Prod.snd

/-- Resolve the phis for an entry from `prev`. -/
def resolvePhis {α : Type} : List Phi → BlockId → Registers α → Option (Registers α)
  | [], _, regs => some regs
  | phi :: phis, prev, regs =>
    match phi.source prev with
    | none => resolvePhis phis prev regs
    | some src =>
      match regs.get src with
      | none => none
      | some value =>
        match regs.set phi.dst value with
        | none => none
        | some regs => resolvePhis phis prev regs

/-! ## Execution -/

/-- How a computation of the runtime ends. -/
inductive Outcome (ε β : Type) where
  | ok (result : β)
  | error (err : ε)
  | panic

/-- The runtime: instructions `ι` over values `α`, with a world `ω` and errors `ε`. -/
structure Host (ι α ω ε : Type) where
  nil : α
  isTruthy : α → Bool
  /-- The check for an interrupt and the gas charge of a block. -/
  charge : Nat → ω → Except ε ω
  /-- The on-stack replacement of a loop whose compiled code is ready. -/
  osrEnter : BlockId → Registers α → ω → Option (Except ε α) × ω
  executeInst : ι → Registers α → ω → Outcome ε (Registers α × ω)
  /-- The safepoint and the counter of a loop's back edge. -/
  backEdge : BlockId → ω → ω
  /-- `EvalError::Runtime`. -/
  runtimeError : String → ε

/-- The interpreter at the entry of a block. -/
structure Config (α ω : Type) where
  currentBlockIdx : Nat
  prevBlockId : BlockId
  regs : Registers α
  world : ω

/-- What a block leads to. -/
inductive Next (α ω ε : Type) where
  | goto (config : Config α ω)
  | done (result : Except ε α)
  | panic

section Execution

variable {ι α ω ε : Type} (host : Host ι α ω ε) (f : IrFunction ι)

def executeInsts : List ι → Registers α → ω → Outcome ε (Registers α × ω)
  | [], regs, world => .ok (regs, world)
  | inst :: insts, regs, world =>
    match host.executeInst inst regs world with
    | .ok (regs, world) => executeInsts insts regs world
    | .error err => .error err
    | .panic => .panic

/-- Enter another block from `block`. -/
def goTo (block : Block ι) (target : BlockId) (regs : Registers α) (world : ω) : Next α ω ε :=
  match f.resolve target with
  | none => .panic
  | some idx => .goto ⟨idx, block.id, regs, world⟩

/-- Execute the terminator. -/
def leave (block : Block ι) (regs : Registers α) (world : ω) : Next α ω ε :=
  match block.terminator with
  | .ret var =>
    match regs.get var with
    | none => .panic
    | some value => .done (.ok value)
  | .jump target => goTo f block target regs world
  | .branch cond thenBlock elseBlock =>
    match regs.get cond with
    | none => .panic
    | some value => goTo f block (if host.isTruthy value then thenBlock else elseBlock) regs world
  | .recurJump target _ => goTo f block target regs (host.backEdge target world)
  | .unreachable => .done (.error (host.runtimeError "IR interpreter: reached unreachable"))

/-- Everything in a block after its phis. -/
def body (block : Block ι) (regs : Registers α) (world : ω) : Next α ω ε :=
  match host.osrEnter block.id regs world with
  | (some result, _) => .done result
  | (none, world) =>
    match executeInsts host block.insts regs world with
    | .panic => .panic
    | .error err => .done (.error err)
    | .ok (regs, world) => leave host f block regs world

/-- One round of the interpreter's loop, with a way to resolve the phis. -/
def stepWith (resolve : List Phi → BlockId → Registers α → Option (Registers α))
    (config : Config α ω) : Next α ω ε :=
  match f.blocks[config.currentBlockIdx]? with
  | none => .panic
  | some block =>
    match host.charge (block.phis.length + block.insts.length + 1) config.world with
    | .error err => .done (.error err)
    | .ok world =>
      match resolve block.phis config.prevBlockId config.regs with
      | none => .panic
      | some regs => body host f block regs world

/-- One round of the interpreter's loop. -/
def step : Config α ω → Next α ω ε := stepWith host f resolvePhis

/-- At most `fuel` rounds. -/
def runWith (resolve : List Phi → BlockId → Registers α → Option (Registers α)) :
    Nat → Config α ω → Next α ω ε
  | 0, config => .goto config
  | fuel + 1, config =>
    match stepWith host f resolve config with
    | .goto config => runWith resolve fuel config
    | next => next

/-- At most `fuel` rounds of the interpreter. -/
def run : Nat → Config α ω → Next α ω ε := runWith host f resolvePhis

/-- Bind the parameters; a missing argument is `nil`. -/
def bindParams : List VarId → List α → Registers α → Option (Registers α)
  | [], _, regs => some regs
  | param :: params, args, regs =>
    match regs.set param (args.head?.getD host.nil) with
    | none => none
    | some regs => bindParams params args.tail regs

/-- The configuration in which a call starts. -/
def start (args : List α) (world : ω) : Option (Config α ω) :=
  (bindParams host f.params args (Registers.new f.nextVar)).map
    (fun regs => ⟨0, ⟨UInt32.ofNat (2 ^ 32 - 1)⟩, regs, world⟩)

end Execution

end Clojurust.Ir
