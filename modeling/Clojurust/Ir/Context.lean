import Clojurust.Ir.Lower
import Clojurust.Ir.Phis

/-!
# Contexts of lowering

The lowering of a form appends to the blocks that are there and allocates variables and blocks it
has to itself. A function that is built from the last context holds the code of all the earlier ones.

* `IrFunction.block?` — the block that an id stands for;
* `Emit` — lowering as a computation on the context;
* `Houses` — a function holds what has been lowered so far;
* `Grows`, `Leaves` — what a piece of lowering does to the context; one lemma for each operation.
-/

namespace Clojurust.Ir

open List

/-! ## Blocks by their ids -/

section Blocks

variable {ι : Type}

/-- The block that is entered for an id. -/
def IrFunction.block? (f : IrFunction ι) (id : BlockId) : Option (Block ι) :=
  (f.resolve id).bind (f.blocks[·]?)

theorem foldl_zipIdx_of_notMem (id : BlockId) : ∀ (blocks : List (Block ι)) (k found : Nat),
    id ∉ blocks.map Block.id →
    (blocks.zipIdx k).foldl (fun found e => if e.1.id = id then e.2 else found) found = found
  | [], _, _, _ => rfl
  | block :: blocks, k, found, h => by
    rw [map_cons, mem_cons, not_or] at h
    rw [zipIdx_cons, foldl_cons, if_neg fun heq => h.1 heq.symm]
    exact foldl_zipIdx_of_notMem id blocks _ found h.2

variable {block : Block ι}

theorem foldl_zipIdx_of_nodup : ∀ {blocks : List (Block ι)} {i : Nat}
    (k found : Nat), (blocks.map Block.id).Nodup → blocks[i]? = some block →
    (blocks.zipIdx k).foldl (fun found e => if e.1.id = block.id then e.2 else found) found = k + i
  | [], _, _, _, _, h => by simp at h
  | head :: blocks, 0, k, found, hnodup, h => by
    rw [map_cons, nodup_cons] at hnodup
    obtain rfl : head = block := by simpa using h
    rw [zipIdx_cons, foldl_cons, if_pos rfl]
    exact foldl_zipIdx_of_notMem _ blocks _ k hnodup.1
  | head :: blocks, i + 1, k, found, hnodup, h => by
    rw [map_cons, nodup_cons] at hnodup
    rw [zipIdx_cons, foldl_cons, foldl_zipIdx_of_nodup (k + 1) _ hnodup.2 (by simpa using h)]
    omega

theorem IrFunction.block?_of_mem {f : IrFunction ι} (hnodup : (f.blocks.map Block.id).Nodup)
    (h : block ∈ f.blocks) : f.block? block.id = some block := by
  obtain ⟨i, hi⟩ := mem_iff_getElem?.mp h
  have hresolve : f.resolve block.id = some i := by
    unfold IrFunction.resolve
    split
    · rename_i hidentity
      unfold IrFunction.isIdentity at hidentity
      rw [all_eq_true] at hidentity
      have := hidentity (block, i) (mk_mem_zipIdx_iff_getElem?.mpr hi)
      simpa using this
    · rw [if_pos, IrFunction.tableEntry]
      · have := foldl_zipIdx_of_nodup 0 0 hnodup hi
        grind
      · grind
  rw [IrFunction.block?, hresolve]
  exact hi

end Blocks

/-! ## Lowering -/

/-- An error of the lowering; `outOfIds` is the panic of a counter. -/
inductive LowerError where
  | malformed (message : String)
  | outOfIds
  deriving DecidableEq

abbrev Emit (ι : Type) := EStateM LowerError (LowerCtx ι)

namespace Emit

variable {ι : Type}

def freshVar : Emit ι VarId := fun ctx =>
  match ctx.freshVar with
  | some (var, ctx) => .ok var ctx
  | none => .error .outOfIds ctx

def freshBlock : Emit ι BlockId := fun ctx =>
  match ctx.freshBlock with
  | some (id, ctx) => .ok id ctx
  | none => .error .outOfIds ctx

def emit (inst : ι) : Emit ι Unit := fun ctx => .ok () (ctx.emit inst)

def emitPhi (dst : VarId) (entries : List (BlockId × VarId)) : Emit ι Unit := fun ctx =>
  .ok () (ctx.emitPhi dst entries)

def finishBlock (terminator : Terminator) : Emit ι Unit := fun ctx =>
  .ok () (ctx.finishBlock terminator)

def startBlock (id : BlockId) : Emit ι Unit := fun ctx => .ok () (ctx.startBlock id)

def currentBlockId : Emit ι BlockId := fun ctx => .ok ctx.currentBlockId ctx

def malformed {β : Type} (message : String) : Emit ι β := throw (.malformed message)

end Emit

section Contexts

variable {ι : Type}

/-- Block ids are used once. -/
@[grind cases]
structure LowerCtx.Sound (ctx : LowerCtx ι) : Prop where
  nodup : (ctx.finishedBlocks.map Block.id).Nodup
  current : ctx.currentBlockId ∉ ctx.finishedBlocks.map Block.id
  below : ∀ id ∈ ctx.finishedBlocks.map Block.id, id.id.toNat < ctx.nextBlock.toNat
  currentBelow : ctx.currentBlockId.id.toNat < ctx.nextBlock.toNat

/-- The function has the finished blocks, and a block that goes on from the current one. -/
@[grind cases]
structure Houses (f : IrFunction ι) (ctx : LowerCtx ι) : Prop where
  finished : ∀ block ∈ ctx.finishedBlocks, f.block? block.id = some block
  current : ∃ insts terminator, f.block? ctx.currentBlockId =
    some ⟨ctx.currentBlockId, ctx.currentPhis, ctx.currentInsts ++ insts, terminator⟩
  vars : ctx.nextVar.toNat ≤ f.nextVar.toNat

/-- The block that comes first in the function. -/
def LowerCtx.first (ctx : LowerCtx ι) : Option BlockId :=
  (ctx.finishedBlocks.map Block.id ++ [ctx.currentBlockId]).head?

/-- What has been lowered stays. -/
@[grind cases]
structure Grows (ctx ctx' : LowerCtx ι) : Prop where
  sound : ctx.Sound → ctx'.Sound
  houses : ∀ f, Houses f ctx' → Houses f ctx
  nextVar : ctx.nextVar.toNat ≤ ctx'.nextVar.toNat
  ids : ∀ id ∈ ctx.finishedBlocks.map Block.id, id ∈ ctx'.finishedBlocks.map Block.id
  first : ctx'.first = ctx.first

theorem Grows.refl (ctx : LowerCtx ι) : Grows ctx ctx :=
  ⟨fun h => h, fun _ h => h, Nat.le_refl _, fun _ h => h, rfl⟩

theorem Grows.trans {ctx1 ctx2 ctx3 : LowerCtx ι} (h : Grows ctx1 ctx2) (h' : Grows ctx2 ctx3) :
    Grows ctx1 ctx3 :=
  ⟨fun hs => h'.sound (h.sound hs), fun f hf => h.houses f (h'.houses f hf),
    Nat.le_trans h.nextVar h'.nextVar, fun id hid => h'.ids id (h.ids id hid),
    h'.first.trans h.first⟩

/-- The blocks that have not been started are not started. -/
def Leaves (ctx ctx' : LowerCtx ι) : Prop := ∀ id, ctx.Unstarted id → ctx'.Unstarted id

variable {ctx ctx' : LowerCtx ι} {id : BlockId}

theorem grows_freshVar {var : VarId} (h : ctx.freshVar = some (var, ctx')) : Grows ctx ctx' := by
  obtain ⟨-, rfl, hnext⟩ := freshVar_eq_some h
  have hle : ctx.nextVar.toNat ≤ (ctx.nextVar + 1).toNat := by omega
  refine ⟨fun hs => ⟨hs.nodup, hs.current, hs.below, hs.currentBelow⟩, ?_, hle, fun _ hid => hid, rfl⟩
  intro f hf
  exact ⟨hf.finished, hf.current, Nat.le_trans hle hf.vars⟩

theorem leaves_freshVar {var : VarId} (h : ctx.freshVar = some (var, ctx')) : Leaves ctx ctx' := by
  obtain ⟨-, rfl, -⟩ := freshVar_eq_some h
  exact fun _ hid => hid

theorem grows_freshBlock (h : ctx.freshBlock = some (id, ctx')) : Grows ctx ctx' := by
  obtain ⟨-, rfl, hnext⟩ := freshBlock_eq_some h
  have hlt : ∀ {n : Nat}, n < ctx.nextBlock.toNat → n < (ctx.nextBlock + 1).toNat := by
    intro n hn
    omega
  refine ⟨?_, fun f hf => ⟨hf.finished, hf.current, hf.vars⟩, Nat.le_refl _, fun _ hid => hid, rfl⟩
  intro hs
  exact ⟨hs.nodup, hs.current, fun id hid => hlt (hs.below id hid), hlt hs.currentBelow⟩

theorem leaves_freshBlock (h : ctx.freshBlock = some (id, ctx')) : Leaves ctx ctx' := by
  obtain ⟨-, rfl, hnext⟩ := freshBlock_eq_some h
  rintro k ⟨hk, hnot, hne⟩
  have hlt : k.id.toNat < (ctx.nextBlock + 1).toNat := by omega
  exact ⟨hlt, hnot, hne⟩

theorem ne_freshBlock {k : BlockId} (h : ctx.freshBlock = some (id, ctx'))
    (hk : ctx.Unstarted k) : k ≠ id := by
  obtain ⟨rfl, -, -⟩ := freshBlock_eq_some h
  rintro rfl
  exact absurd hk.1 (Nat.lt_irrefl _)

theorem unstarted_freshBlock (hs : ctx.Sound)
    (h : ctx.freshBlock = some (id, ctx')) : ctx'.Unstarted id := by
  obtain ⟨rfl, rfl, hnext⟩ := freshBlock_eq_some h
  have hlt : ctx.nextBlock.toNat < (ctx.nextBlock + 1).toNat := by omega
  refine ⟨hlt, ?_, ?_⟩
  · grind
  · grind

theorem grows_emit (ctx : LowerCtx ι) (inst : ι) : Grows ctx (ctx.emit inst) := by
  refine ⟨fun hs => ⟨hs.nodup, hs.current, hs.below, hs.currentBelow⟩, ?_, Nat.le_refl _,
    fun _ hid => hid, rfl⟩
  intro f hf
  obtain ⟨insts, terminator, hblock⟩ := hf.current
  refine ⟨hf.finished, ⟨inst :: insts, terminator, ?_⟩, hf.vars⟩
  have hinsts : (ctx.emit inst).currentInsts ++ insts = ctx.currentInsts ++ inst :: insts :=
    append_assoc ctx.currentInsts [inst] insts
  rw [hinsts] at hblock
  exact hblock

/-- Finish the block and start another one, with its phis. -/
def LowerCtx.switch (ctx : LowerCtx ι) (terminator : Terminator) (id : BlockId) (phis : List Phi) :
    LowerCtx ι :=
  { (ctx.finishBlock terminator).startBlock id with currentPhis := phis }

/-- The current block has no more instructions. -/
def Ended (f : IrFunction ι) (ctx : LowerCtx ι) (terminator : Terminator) : Prop :=
  f.block? ctx.currentBlockId =
    some ⟨ctx.currentBlockId, ctx.currentPhis, ctx.currentInsts, terminator⟩

section Switch

variable {ctx : LowerCtx ι} (terminator : Terminator) {id : BlockId} (phis : List Phi)

theorem finishedBlocks_switch : (ctx.switch terminator id phis).finishedBlocks =
    ctx.finishedBlocks ++ [⟨ctx.currentBlockId, ctx.currentPhis, ctx.currentInsts, terminator⟩] := rfl

theorem mem_ids_switch {k : BlockId} :
    k ∈ (ctx.switch terminator id phis).finishedBlocks.map Block.id ↔
      k ∈ ctx.finishedBlocks.map Block.id ∨ k = ctx.currentBlockId := by
  rw [finishedBlocks_switch, map_append, mem_append, map_singleton, mem_singleton]

theorem nodup_finishBlock (hs : ctx.Sound) :
    ((ctx.finishBlock terminator).finishedBlocks.map Block.id).Nodup := by
  rw [LowerCtx.finishBlock, map_append, map_singleton]
  grind

theorem sound_switch (hs : ctx.Sound) (hid : ctx.Unstarted id) :
    (ctx.switch terminator id phis).Sound := by
  obtain ⟨hlt, hnot, hne⟩ := hid
  refine ⟨nodup_finishBlock terminator hs, ?_, ?_, hlt⟩
  · rw [mem_ids_switch]
    rintro (hmem | heq)
    · exact hnot hmem
    · exact hne heq
  · intro k hk
    rcases (mem_ids_switch terminator phis).mp hk with hmem | rfl
    · exact hs.below k hmem
    · exact hs.currentBelow

theorem houses_switch {f : IrFunction ι} (h : Houses f (ctx.switch terminator id phis)) :
    Houses f ctx ∧ Ended f ctx terminator := by
  have hblock := h.finished ⟨ctx.currentBlockId, ctx.currentPhis, ctx.currentInsts, terminator⟩ (by
    rw [finishedBlocks_switch]
    simp)
  refine ⟨⟨?_, ⟨[], terminator, ?_⟩, h.vars⟩, hblock⟩
  · intro block hmem
    exact h.finished block (by exact mem_append_left _ hmem)
  · grind

theorem grows_switch (hs : ctx.Sound) (hid : ctx.Unstarted id) :
    Grows ctx (ctx.switch terminator id phis) := by
  refine ⟨fun _ => sound_switch terminator phis hs hid, fun _ hf => (houses_switch _ _ hf).1,
    Nat.le_refl _, fun _ hid => (mem_ids_switch terminator phis).mpr (.inl hid), ?_⟩
  rw [LowerCtx.first, LowerCtx.first, finishedBlocks_switch, map_append]
  simp

theorem unstarted_switch {k : BlockId} (hk : ctx.Unstarted k) (hne : k ≠ id) :
    (ctx.switch terminator id phis).Unstarted k := by
  refine ⟨hk.1, ?_, hne⟩
  rw [mem_ids_switch]
  rintro (hmem | heq)
  · exact hk.2.1 hmem
  · exact hk.2.2 heq

theorem freshVar_switch {dst : VarId}
    (h : (ctx.switch terminator id []).freshVar = some (dst, ctx')) :
    ∃ ctx1, ctx.freshVar = some (dst, ctx1) ∧
      ∀ entries, ctx'.emitPhi dst entries = ctx1.switch terminator id [⟨dst, entries⟩] := by
  unfold LowerCtx.freshVar at h ⊢
  split at h
  · rename_i hlt
    obtain ⟨rfl, rfl⟩ := Prod.mk.inj (Option.some.inj h)
    exact ⟨_, if_pos hlt, fun _ => rfl⟩
  · cases h

end Switch

end Contexts

end Clojurust.Ir
