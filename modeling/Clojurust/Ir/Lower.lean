import Clojurust.Ir.Interp

/-!
# Lowering loops

Model of the block building of `crates/cljrs-ir/src/lower/context.rs` and of the loops of
`crates/cljrs-ir/src/lower/anf.rs`: `lower_loop` opens a header with one phi per binding, and
every `recur` adds an entry to each of them.  The forms inside a loop are lowered by any sequence
of the context's operations (`Lowering`).

Ids are `u32` counters; a lowering that runs out of them panics (`none`).
-/

namespace Clojurust.Ir

/-- The lowering context, as far as blocks and loops go. -/
structure LowerCtx (ι : Type) where
  finishedBlocks : List (Block ι)
  currentBlockId : BlockId
  currentPhis : List Phi
  currentInsts : List ι
  /-- The enclosing loops, innermost first: the header and its phi variables. -/
  loopHeaders : List (BlockId × List VarId)
  nextVar : UInt32
  nextBlock : UInt32

/-- Apply `g` to the phis of the first block with the id. -/
def modifyPhis {ι : Type} (id : BlockId) (g : List Phi → List Phi) : List (Block ι) → List (Block ι)
  | [] => []
  | block :: blocks =>
    if block.id = id then { block with phis := g block.phis } :: blocks
    else block :: modifyPhis id g blocks

/-- Add an entry to the phi at an index, if there is one. -/
def pushEntry : Nat → BlockId × VarId → List Phi → List Phi
  | _, _, [] => []
  | 0, entry, phi :: phis => { phi with entries := phi.entries ++ [entry] } :: phis
  | phiIndex + 1, entry, phi :: phis => phi :: pushEntry phiIndex entry phis

namespace LowerCtx

variable {ι : Type}

/-- A new context: block 0 is the entry block and already started. -/
def new : LowerCtx ι := ⟨[], ⟨0⟩, [], [], [], 0, 1⟩

def freshVar (ctx : LowerCtx ι) : Option (VarId × LowerCtx ι) :=
  if ctx.nextVar.toNat + 1 < 2 ^ 32 then
    some (⟨ctx.nextVar⟩, { ctx with nextVar := ctx.nextVar + 1 })
  else none

def freshBlock (ctx : LowerCtx ι) : Option (BlockId × LowerCtx ι) :=
  if ctx.nextBlock.toNat + 1 < 2 ^ 32 then
    some (⟨ctx.nextBlock⟩, { ctx with nextBlock := ctx.nextBlock + 1 })
  else none

def emit (ctx : LowerCtx ι) (inst : ι) : LowerCtx ι :=
  { ctx with currentInsts := ctx.currentInsts ++ [inst] }

def emitPhi (ctx : LowerCtx ι) (dst : VarId) (entries : List (BlockId × VarId)) : LowerCtx ι :=
  { ctx with currentPhis := ctx.currentPhis ++ [⟨dst, entries⟩] }

def finishBlock (ctx : LowerCtx ι) (terminator : Terminator) : LowerCtx ι :=
  { ctx with
    finishedBlocks :=
      ctx.finishedBlocks ++ [⟨ctx.currentBlockId, ctx.currentPhis, ctx.currentInsts, terminator⟩]
    currentPhis := []
    currentInsts := [] }

def startBlock (ctx : LowerCtx ι) (id : BlockId) : LowerCtx ι := { ctx with currentBlockId := id }

def pushLoopHeader (ctx : LowerCtx ι) (header : BlockId) (phiVars : List VarId) : LowerCtx ι :=
  { ctx with loopHeaders := (header, phiVars) :: ctx.loopHeaders }

def popLoopHeader (ctx : LowerCtx ι) : LowerCtx ι :=
  { ctx with loopHeaders := ctx.loopHeaders.tail }

/-- Patch a phi of an already finished block. -/
def updatePhiInHeader (ctx : LowerCtx ι) (header : BlockId) (phiIndex : Nat) (fromBlock : BlockId)
    (var : VarId) : LowerCtx ι :=
  { ctx with
    finishedBlocks := modifyPhis header (pushEntry phiIndex (fromBlock, var)) ctx.finishedBlocks }

/-- A phi for each binding of a loop. -/
def emitLoopPhis (initBlock : BlockId) : List VarId → LowerCtx ι → Option (List VarId × LowerCtx ι)
  | [], ctx => some ([], ctx)
  | init :: inits, ctx =>
    match ctx.freshVar with
    | none => none
    | some (phiVar, ctx) =>
      match emitLoopPhis initBlock inits (ctx.emitPhi phiVar [(initBlock, init)]) with
      | none => none
      | some (phiVars, ctx) => some (phiVar :: phiVars, ctx)

/-- `lower_loop` once the initial values are lowered: enter the header. -/
def openLoop (ctx : LowerCtx ι) (inits : List VarId) :
    Option (BlockId × List VarId × LowerCtx ι) :=
  match ctx.freshBlock with
  | none => none
  | some (header, ctx) =>
    let initBlock := ctx.currentBlockId
    match emitLoopPhis initBlock inits ((ctx.finishBlock (.jump header)).startBlock header) with
    | none => none
    | some (phiVars, ctx) => some (header, phiVars, ctx)

/-- Patch the phis of the header with the arguments of a `recur` in `recurBlock`. -/
def patchHeader (ctx : LowerCtx ι) (header recurBlock : BlockId) (argVars : List VarId) :
    LowerCtx ι :=
  argVars.zipIdx.foldl
    (fun ctx arg => ctx.updatePhiInHeader header arg.2 recurBlock arg.1) ctx

/-- `lower_recur` once the arguments are lowered; the dead block after it starts with a `nil`.
`none` is also the error for a `recur` outside of a loop. -/
def lowerRecur (nilConst : VarId → ι) (ctx : LowerCtx ι) (argVars : List VarId) :
    Option (LowerCtx ι) :=
  match ctx.loopHeaders with
  | [] => none
  | (header, _) :: _ =>
    let recurBlock := ctx.currentBlockId
    let ctx := (ctx.patchHeader header recurBlock argVars).finishBlock (.recurJump header argVars)
    match ctx.freshBlock with
    | none => none
    | some (newBlock, ctx) =>
      match (ctx.startBlock newBlock).freshVar with
      | none => none
      | some (var, ctx) => some (ctx.emit (nilConst var))

/-- The phis of a block, finished or current. -/
def phisOf (ctx : LowerCtx ι) (id : BlockId) : Option (List Phi) :=
  match ctx.finishedBlocks.find? (fun block => block.id == id) with
  | some block => some block.phis
  | none => if ctx.currentBlockId = id then some ctx.currentPhis else none

/-- The block has been allocated and not been started. -/
def Unstarted (ctx : LowerCtx ι) (id : BlockId) : Prop :=
  id.id.toNat < ctx.nextBlock.toNat ∧ id ∉ ctx.finishedBlocks.map Block.id ∧ id ≠ ctx.currentBlockId

end LowerCtx

section

variable {ι : Type} (nilConst : VarId → ι)

/-- The contexts that lowering leads to. -/
inductive Lowering : LowerCtx ι → LowerCtx ι → Prop where
  | refl (ctx : LowerCtx ι) : Lowering ctx ctx
  | freshVar {ctx ctx1 ctx2 : LowerCtx ι} {var : VarId} : Lowering ctx ctx1 →
      ctx1.freshVar = some (var, ctx2) → Lowering ctx ctx2
  | freshBlock {ctx ctx1 ctx2 : LowerCtx ι} {id : BlockId} : Lowering ctx ctx1 →
      ctx1.freshBlock = some (id, ctx2) → Lowering ctx ctx2
  | emit {ctx ctx1 : LowerCtx ι} (inst : ι) : Lowering ctx ctx1 →
      Lowering ctx (ctx1.emit inst)
  /-- Finish the block and start another one, with the phis of a join. -/
  | switchTo {ctx ctx1 : LowerCtx ι} (terminator : Terminator) (id : BlockId) (phis : List Phi) :
      Lowering ctx ctx1 → ctx1.Unstarted id → Lowering ctx
        (phis.foldl (fun ctx phi => ctx.emitPhi phi.dst phi.entries)
          ((ctx1.finishBlock terminator).startBlock id))
  /-- Enter a loop; its patterns are lowered before it becomes the target of a `recur`. -/
  | openLoop {ctx ctx1 ctx2 ctx3 : LowerCtx ι} {header : BlockId} {phiVars : List VarId}
      (inits : List VarId) : Lowering ctx ctx1 →
      ctx1.openLoop inits = some (header, phiVars, ctx2) → Lowering ctx2 ctx3 →
      Lowering ctx (ctx3.pushLoopHeader header phiVars)
  | popLoop {ctx ctx1 : LowerCtx ι} : Lowering ctx ctx1 →
      Lowering ctx ctx1.popLoopHeader
  | lowerRecur {ctx ctx1 ctx2 : LowerCtx ι} (argVars : List VarId) : Lowering ctx ctx1 →
      ctx1.lowerRecur nilConst argVars = some ctx2 → Lowering ctx ctx2

end

/-! ## New ids -/

section Fresh

variable {ι : Type}

theorem toNat_succ {n : UInt32} (h : n.toNat + 1 < 2 ^ 32) : (n + 1).toNat = n.toNat + 1 := by
  exact Nat.mod_eq_of_lt h

variable {ctx ctx' : LowerCtx ι}

theorem freshVar_eq_some {var : VarId} (h : ctx.freshVar = some (var, ctx')) :
    var = ⟨ctx.nextVar⟩ ∧ ctx' = { ctx with nextVar := ctx.nextVar + 1 } ∧
      (ctx.nextVar + 1).toNat = ctx.nextVar.toNat + 1 := by
  unfold LowerCtx.freshVar at h
  split at h
  · rename_i hlt
    obtain ⟨rfl, rfl⟩ := Prod.mk.inj (Option.some.inj h)
    exact ⟨rfl, rfl, toNat_succ hlt⟩
  · cases h

theorem freshBlock_eq_some {id : BlockId} (h : ctx.freshBlock = some (id, ctx')) :
    id = ⟨ctx.nextBlock⟩ ∧ ctx' = { ctx with nextBlock := ctx.nextBlock + 1 } ∧
      (ctx.nextBlock + 1).toNat = ctx.nextBlock.toNat + 1 := by
  unfold LowerCtx.freshBlock at h
  split at h
  · rename_i hlt
    obtain ⟨rfl, rfl⟩ := Prod.mk.inj (Option.some.inj h)
    exact ⟨rfl, rfl, toNat_succ hlt⟩
  · cases h

end Fresh

end Clojurust.Ir
