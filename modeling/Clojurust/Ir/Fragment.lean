import Clojurust.Ir.Context
import Clojurust.Lib.StateExcept

/-!
# Pieces of lowered code

A form is lowered by a piece of code that ends in some block with its value in a variable
(`Emit`). Pieces are put one after the other, and side by side in the arms of a branch.

* `Computes` — the code between two contexts computes a value, an error or a panic;
* `Emits` — a piece of lowering whose code does so, given the values of some variables; one rule for
  each way to put pieces together: `Emits.bind`, `emits_inst`;
* `interpret_lowerFnBody` — a function whose body is such a piece.

The rules are for a runtime without gas, interrupts and compiled code (`Calm`).
-/

namespace Clojurust.Ir

open StateExcept List

/-! ## Running a piece of code -/

section Running

variable {ι α ε : Type} (host : Host ι α Unit ε) (f : IrFunction ι)

/-- No gas, no interrupts and no compiled code. -/
@[grind cases]
structure Calm : Prop where
  charge : ∀ n, host.charge n () = .ok ()
  osrEnter : ∀ id regs, host.osrEnter id regs () = (none, ())

/-- Go on for a number of blocks. -/
def complete (n : Nat) : Next α Unit ε → Next α Unit ε
  | .goto config => run host f n config
  | next => next

/-- The rest of a block. -/
def resume (block : Block ι) (insts : List ι) (regs : Registers α) : Next α Unit ε :=
  match executeInsts host insts regs () with
  | .panic => .panic
  | .error err => .done (.error err)
  | .ok (regs, world) => leave host f block regs world

/-- From where the context stands, through a number of blocks. -/
def runFrom (ctx : LowerCtx ι) (regs : Registers α) (n : Nat) : Next α Unit ε :=
  match f.block? ctx.currentBlockId with
  | none => .panic
  | some block => complete host f n (resume host f block (block.insts.drop ctx.currentInsts.length) regs)

/-- Enter a block. -/
def enter (prev target : BlockId) (regs : Registers α) (n : Nat) : Next α Unit ε :=
  match f.block? target with
  | none => .panic
  | some block =>
    match resolvePhis block.phis prev regs with
    | none => .panic
    | some regs => complete host f n (resume host f block block.insts regs)

variable {host f}

theorem body_eq_resume (hcalm : Calm host) (block : Block ι) (regs : Registers α) :
    body host f block regs () = resume host f block block.insts regs := by
  simp only [body, resume, hcalm.osrEnter]
  grind

theorem run_eq_enter (hcalm : Calm host) {idx : Nat} {target : BlockId}
    (hidx : f.block? target = f.blocks[idx]?) (prev : BlockId) (regs : Registers α) (n : Nat) :
    run host f (n + 1) ⟨idx, prev, regs, ()⟩ = enter host f prev target regs n := by
  unfold enter
  rw [hidx]
  simp only [run, runWith, stepWith]
  cases hblock : f.blocks[idx]? with
  | none => rfl
  | some block =>
    simp only [hcalm.charge]
    cases hphis : resolvePhis block.phis prev regs with
    | none => rfl
    | some regs' =>
      simp only [body_eq_resume hcalm]
      cases resume host f block block.insts regs' with
      | goto | done | panic => rfl

theorem runFrom_congr {ctx ctx' : LowerCtx ι} (hblock : ctx'.currentBlockId = ctx.currentBlockId)
    (hinsts : ctx'.currentInsts = ctx.currentInsts) : runFrom host f ctx' = runFrom host f ctx := by
  unfold runFrom
  rw [hblock, hinsts]

theorem runFrom_emit {ctx : LowerCtx ι} {inst : ι} (hf : Houses f (ctx.emit inst)) (regs : Registers α)
    (n : Nat) : runFrom host f ctx regs n = match host.executeInst inst regs () with
      | .ok (regs', _) => runFrom host f (ctx.emit inst) regs' n
      | .error err => .done (.error err)
      | .panic => .panic := by
  obtain ⟨insts, terminator, hblock⟩ := hf.current
  have hblock' : f.block? ctx.currentBlockId = some ⟨ctx.currentBlockId, ctx.currentPhis,
      (ctx.currentInsts ++ [inst]) ++ insts, terminator⟩ := hblock
  have hdrop : ((ctx.currentInsts ++ [inst]) ++ insts).drop ctx.currentInsts.length = inst :: insts := by
    rw [append_assoc, drop_left]
    rfl
  have hdrop' : ((ctx.currentInsts ++ [inst]) ++ insts).drop (ctx.currentInsts ++ [inst]).length =
      insts := drop_left
  unfold runFrom
  simp only [hblock', LowerCtx.emit, hdrop, hdrop', resume, executeInsts]
  cases host.executeInst inst regs () with
  | ok | error | panic => rfl

theorem runFrom_ended (hcalm : Calm host) {ctx : LowerCtx ι} {terminator : Terminator}
    (hended : Ended f ctx terminator) (regs : Registers α) {target : BlockId}
    (hleave : ∀ block : Block ι, block.terminator = terminator →
      leave host f block regs () = goTo f block target regs ())
    (n : Nat) : runFrom host f ctx regs (n + 1) = enter host f ctx.currentBlockId target regs n := by
  unfold Ended at hended
  unfold runFrom
  simp only [hended, drop_length, resume, executeInsts]
  rw [hleave _ rfl, goTo]
  cases hresolve : f.resolve target with
  | none => simp only [complete, enter, IrFunction.block?, hresolve, Option.bind_none]
  | some idx =>
    have hidx : f.block? target = f.blocks[idx]? := by
      rw [IrFunction.block?, hresolve, Option.bind_some]
    exact run_eq_enter hcalm hidx _ regs n

theorem enter_eq_runFrom {ctx : LowerCtx ι} (hf : Houses f ctx) (hinsts : ctx.currentInsts = [])
    {prev : BlockId} {regs regs' : Registers α}
    (hphis : resolvePhis ctx.currentPhis prev regs = some regs') (n : Nat) :
    enter host f prev ctx.currentBlockId regs n = runFrom host f ctx regs' n := by
  obtain ⟨insts, terminator, hblock⟩ := hf.current
  unfold enter runFrom
  grind

end Running

/-! ## Computing a value -/

section Computing

variable {ι α ε : Type}

def Outcome.bind {β γ : Type} : Outcome ε β → (β → Outcome ε γ) → Outcome ε γ
  | .ok v, g => g v
  | .error err, _ => .error err
  | .panic, _ => .panic

/-- The variables of the context keep their values. -/
@[grind cases]
structure Retains (ctx : LowerCtx ι) (regs regs' : Registers α) : Prop where
  length : regs'.values.length = regs.values.length
  get : ∀ v : VarId, v.id.toNat < ctx.nextVar.toNat → regs'.get v = regs.get v

/-- Variables of the context. -/
def Known (ctx : LowerCtx ι) (vals : List (VarId × α)) : Prop :=
  ∀ e ∈ vals, e.1.id.toNat < ctx.nextVar.toNat

/-- Variables with their values. -/
def Holds (regs : Registers α) (vals : List (VarId × α)) : Prop := ∀ e ∈ vals, regs.get e.1 = some e.2

theorem Retains.refl (ctx : LowerCtx ι) (regs : Registers α) : Retains ctx regs regs :=
  ⟨rfl, fun _ _ => rfl⟩

variable {ctx ctx' ctx0 ctx1 ctx2 : LowerCtx ι} {regs regs' : Registers α} {vals : List (VarId × α)} {v : α}
  {dst mid cond : VarId} {join : BlockId} {result : Outcome ε α} {f : IrFunction ι} {args : List α}

theorem Retains.trans {regs1 regs2 regs3 : Registers α} (h : Retains ctx regs1 regs2)
    (h' : Retains ctx' regs2 regs3) (hle : ctx.nextVar.toNat ≤ ctx'.nextVar.toNat) :
    Retains ctx regs1 regs3 := by
  refine ⟨h'.length.trans h.length, ?_⟩
  grind

theorem Known.grow (h : Known ctx vals) (hle : ctx.nextVar.toNat ≤ ctx'.nextVar.toNat) :
    Known ctx' vals :=
  fun e he => Nat.lt_of_lt_of_le (h e he) hle

theorem Holds.keep (h : Holds regs vals) (hknown : Known ctx vals)
    (hretains : Retains ctx regs regs') : Holds regs' vals :=
  fun e he => (hretains.get e.1 (hknown e he)).trans (h e he)

variable (host : Host ι α Unit ε)

/-- The code between two contexts leaves a value in `dst`, or fails. -/
def Computes (ctx ctx' : LowerCtx ι) (dst : VarId) (regs : Registers α) (result : Outcome ε α) : Prop :=
  ∀ f : IrFunction ι, Houses f ctx' → regs.values.length = f.nextVar.toNat →
    match result with
    | .ok v => ∃ k regs', Retains ctx regs regs' ∧ regs'.get dst = some v ∧
        ∀ n, runFrom host f ctx regs (n + k) = runFrom host f ctx' regs' n
    | .error err => ∃ k, ∀ n, runFrom host f ctx regs (n + k) = .done (.error err)
    | .panic => ∃ k, ∀ n, runFrom host f ctx regs (n + k) = .panic

/-- A piece of lowering whose code has the result wherever the variables have the values. -/
def Emits (vals : List (VarId × α)) (piece : Emit ι VarId) (result : Outcome ε α) : Prop :=
  ∀ ctx, ctx.Sound → Known ctx vals → wp piece (fun dst ctx' => Grows ctx ctx' ∧ Leaves ctx ctx' ∧
    dst.id.toNat < ctx'.nextVar.toNat ∧
      ∀ regs, Holds regs vals → Computes host ctx ctx' dst regs result) (fun _ _ => True) ctx

variable {host}

theorem emits_pure {var : VarId} (h : (var, v) ∈ vals) : Emits host vals (pure var) (.ok v) := by
  intro ctx _ hknown
  refine ⟨.refl _, fun _ hid => hid, hknown _ h, fun regs hregs => ?_⟩
  intro f _ _
  exact ⟨0, regs, .refl _ _, hregs _ h, fun _ => rfl⟩

theorem emits_throw (err : LowerError) (result : Outcome ε α) :
    Emits host vals (throw err) result := fun _ _ _ => trivial

/-- Code that first runs to where the rest is computed. -/
theorem Computes.after (hle : ctx0.nextVar.toNat ≤ ctx.nextVar.toNat)
    (h : ∀ f, Houses f ctx' → regs.values.length = f.nextVar.toNat → ∃ k regs1, Retains ctx0 regs regs1 ∧
      (∀ n, runFrom host f ctx0 regs (n + k) = runFrom host f ctx regs1 n) ∧
      Computes host ctx ctx' dst regs1 result) : Computes host ctx0 ctx' dst regs result := by
  intro f hf hlen
  obtain ⟨k, regs1, hretains, hrun, hrest⟩ := h f hf hlen
  have hcode := hrest f hf (hretains.length.trans hlen)
  have hrun' : ∀ n l, runFrom host f ctx0 regs (n + (l + k)) = runFrom host f ctx regs1 (n + l) := by
    intro n l
    rw [← Nat.add_assoc]
    exact hrun (n + l)
  cases result with
  | ok w =>
    obtain ⟨l, regs2, hretains', hdst, hrun2⟩ := hcode
    refine ⟨l + k, regs2, hretains.trans hretains' hle, hdst, fun n => ?_⟩
    rw [hrun', hrun2]
  | error | panic =>
    obtain ⟨l, hrun2⟩ := hcode
    exact ⟨l + k, fun n => by rw [hrun', hrun2]⟩

theorem Computes.next (h : Computes host ctx ctx1 mid regs (.ok v)) (hgrows : Grows ctx ctx1)
    (hgrows' : Grows ctx1 ctx2) (h' : ∀ regs1, Retains ctx regs regs1 → regs1.get mid = some v →
      Computes host ctx1 ctx2 dst regs1 result) : Computes host ctx ctx2 dst regs result := by
  refine .after hgrows.nextVar fun f hf hlen => ?_
  obtain ⟨k, regs1, hretains, hmid, hrun⟩ := h f (hgrows'.houses f hf) hlen
  exact ⟨k, regs1, hretains, hrun, h' regs1 hretains hmid⟩

theorem Computes.seq {result' : α → Outcome ε α} (h : Computes host ctx ctx1 mid regs result)
    (hgrows : Grows ctx ctx1) (hgrows' : Grows ctx1 ctx2)
    (h' : ∀ v regs1, result = .ok v → Retains ctx regs regs1 → regs1.get mid = some v →
      Computes host ctx1 ctx2 dst regs1 (result' v)) :
    Computes host ctx ctx2 dst regs (result.bind result') := by
  cases result with
  | ok v => exact h.next hgrows hgrows' fun regs1 => h' v regs1 rfl
  | error | panic => exact fun f hf hlen => h f (hgrows'.houses f hf) hlen

/-- Code in sequence: the rest may use the value of the first part. -/
theorem Emits.bind {piece : Emit ι VarId} {next : VarId → Emit ι VarId} {result' : α → Outcome ε α}
    (h : Emits host vals piece result) (h' : ∀ dst v, (∀ w, result = .ok w → w = v) →
      Emits host ((dst, v) :: vals) (next dst) (result' v)) :
    Emits host vals (piece >>= next) (result.bind result') := by
  intro ctx hs hknown
  refine wp_seq_any (h ctx hs hknown) ?_
  rintro mid ctx1 ⟨hgrows, hleaves, hmid, hcomputes⟩
  have hs1 := hgrows.sound hs
  have hknown1 : ∀ v, Known ctx1 ((mid, v) :: vals) := fun v =>
    forall_mem_cons.mpr ⟨hmid, hknown.grow hgrows.nextVar⟩
  -- what the second piece lowers to does not depend on the value
  refine wp_of (fun dst ctx2 hrun => ?_) fun _ _ _ => trivial
  have hnext := fun v hv => wp_ok (h' mid v hv ctx1 hs1 (hknown1 v)) hrun
  obtain ⟨v0, hv0⟩ : ∃ v, ∀ w, result = .ok w → w = v := by
    cases result with
    | ok v => simp
    | error | panic => exact ⟨host.nil, fun w hw => nomatch hw⟩
  obtain ⟨hgrows', hleaves', hdst, -⟩ := hnext v0 hv0
  refine ⟨hgrows.trans hgrows', fun id hid => hleaves' id (hleaves id hid), hdst, ?_⟩
  intro regs hregs
  refine (hcomputes regs hregs).seq hgrows hgrows' ?_
  intro v regs1 hresult hretains hget
  have hv : ∀ w, result = .ok w → w = v := fun w hw => Outcome.ok.inj (hw.symm.trans hresult)
  exact (hnext v hv).2.2.2 regs1 (forall_mem_cons.mpr ⟨hget, hregs.keep hknown hretains⟩)

theorem Emits.next {piece : Emit ι VarId} {next : VarId → Emit ι VarId}
    (h : Emits host vals piece (.ok v))
    (h' : ∀ dst, Emits host ((dst, v) :: vals) (next dst) result) :
    Emits host vals (piece >>= next) result := by
  show Emits host vals (piece >>= next) ((Outcome.ok v).bind fun _ => result)
  refine h.bind fun dst w hw => ?_
  grind

/-- The effect of an instruction that computes a value. -/
def assign (regs : Registers α) (dst : VarId) : Outcome ε α → Outcome ε (Registers α × Unit)
  | .ok v =>
    match regs.set dst v with
    | some regs => .ok (regs, ())
    | none => .panic
  | .error err => .error err
  | .panic => .panic

theorem wp_freshVar {Q : VarId → LowerCtx ι → Prop}
    (h : ∀ var ctx', ctx.freshVar = some (var, ctx') → Q var ctx') :
    wp Emit.freshVar Q (fun _ _ => True) ctx := by
  rw [wp, Emit.freshVar]
  grind

/-- A block to be started later. -/
@[grind cases]
structure Spare (ctx : LowerCtx ι) (id : BlockId) (ctx' : LowerCtx ι) : Prop where
  grows : Grows ctx ctx'
  leaves : Leaves ctx ctx'
  unstarted : ctx'.Unstarted id
  ne : ∀ k, ctx.Unstarted k → k ≠ id
  block : ctx'.currentBlockId = ctx.currentBlockId
  insts : ctx'.currentInsts = ctx.currentInsts

theorem wp_freshBlock (hs : ctx.Sound) : wp Emit.freshBlock (Spare ctx) (fun _ _ => True) ctx := by
  rw [wp, Emit.freshBlock]
  cases hfresh : ctx.freshBlock with
  | none => trivial
  | some pair =>
    have hblock : pair.2.currentBlockId = ctx.currentBlockId ∧
        pair.2.currentInsts = ctx.currentInsts := by
      obtain ⟨-, heq, -⟩ := freshBlock_eq_some hfresh
      rw [heq]
      exact ⟨rfl, rfl⟩
    exact ⟨grows_freshBlock hfresh, leaves_freshBlock hfresh, unstarted_freshBlock hs hfresh,
      fun k hk => ne_freshBlock hfresh hk, hblock.1, hblock.2⟩

theorem exists_set_retains (hhas : regs.Has dst) (hle : ctx.nextVar.toNat ≤ dst.id.toNat) (v : α) :
    ∃ regs', regs.set dst v = some regs' ∧ Retains ctx regs regs' ∧ regs'.get dst = some v := by
  obtain ⟨regs', h⟩ := Registers.exists_set hhas v
  refine ⟨regs', h, ⟨Registers.length_of_set h, ?_⟩, ?_⟩
  · intro var hvar
    rw [Registers.get_of_set h, Function.update_of_ne]
    grind
  · rw [Registers.get_of_set h, Function.update_self]

theorem emits_inst {inst : VarId → ι} (hexec : ∀ dst regs, Holds regs vals →
      host.executeInst (inst dst) regs () = assign regs dst result) :
    Emits host vals (do let dst ← Emit.freshVar; Emit.emit (inst dst); return dst) result := by
  intro ctx hs hknown
  refine wp_seq_any (wp_freshVar fun dst ctx1 hfresh => hfresh) ?_
  intro dst ctx1 hfresh
  have hgrows := (grows_freshVar hfresh).trans (grows_emit ctx1 (inst dst))
  have hdst : dst.id.toNat < (ctx1.emit (inst dst)).nextVar.toNat := by
    obtain ⟨rfl, rfl, hnext⟩ := freshVar_eq_some hfresh
    show ctx.nextVar.toNat < (ctx.nextVar + 1).toNat
    omega
  refine ⟨hgrows, fun id hid => leaves_freshVar hfresh id hid, hdst, ?_⟩
  intro regs hregs f hf hlen
  have hstep : ∀ n, runFrom host f ctx regs n =
      match assign regs dst result with
      | .ok (regs', _) => runFrom host f (ctx1.emit (inst dst)) regs' n
      | .error err => .done (.error err)
      | .panic => .panic := by
    intro n
    obtain ⟨rfl, rfl, -⟩ := freshVar_eq_some hfresh
    rw [← hexec _ regs hregs]
    exact runFrom_emit hf regs n
  cases result with
  | ok v =>
    have hhas : regs.Has dst := Nat.lt_of_lt_of_le hdst (hlen ▸ hf.vars)
    obtain ⟨rfl, -⟩ := freshVar_eq_some hfresh
    obtain ⟨regs', hset, hretains, hget⟩ := exists_set_retains hhas (Nat.le_refl ctx.nextVar.toNat) v
    refine ⟨0, regs', hretains, hget, fun n => ?_⟩
    rw [Nat.add_zero, hstep]
    simp only [assign, hset]
  | error | panic => exact ⟨0, fun n => hstep n⟩

/-! ## Arms that meet -/

/-- Finish the block with a jump to a block that starts with a phi. -/
def joinAt (join : BlockId) (entries : List (BlockId × VarId)) : Emit ι VarId := do
  Emit.finishBlock (.jump join)
  Emit.startBlock join
  let dst ← Emit.freshVar
  Emit.emitPhi dst entries
  return dst

/-- The context at the start of the block where arms meet, the last of which ends in `ctx`. -/
@[grind cases]
structure Joins (ctx : LowerCtx ι) (join : BlockId) (entries : List (BlockId × VarId)) (dst : VarId)
    (ctx' : LowerCtx ι) : Prop where
  grows : Grows ctx ctx'
  leaves : ∀ id, ctx.Unstarted id → id ≠ join → ctx'.Unstarted id
  ended : ∀ f, Houses f ctx' → Ended f ctx (.jump join)
  block : ctx'.currentBlockId = join
  insts : ctx'.currentInsts = []
  phis : ctx'.currentPhis = [⟨dst, entries⟩]
  above : ctx.nextVar.toNat ≤ dst.id.toNat
  below : dst.id.toNat < ctx'.nextVar.toNat

theorem wp_joinAt (hs : ctx.Sound) (hjoin : ctx.Unstarted join) (entries : List (BlockId × VarId)) :
    wp (joinAt join entries) (Joins ctx join entries) (fun _ _ => True) ctx := by
  show wp (Emit.freshVar >>= fun dst => do Emit.emitPhi dst entries; return dst) _ _
    (ctx.switch (.jump join) join [])
  refine wp_seq_any (wp_freshVar fun dst ctx1 hfresh => hfresh) ?_
  intro dst ctx1 hfresh
  show Joins ctx join entries dst (ctx1.emitPhi dst entries)
  obtain ⟨ctx2, hfresh, hemit⟩ := freshVar_switch (.jump join) hfresh
  rw [hemit]
  have hgrows := grows_freshVar hfresh
  have hs2 := hgrows.sound hs
  have hjoin2 := leaves_freshVar hfresh join hjoin
  obtain ⟨rfl, rfl, hnext⟩ := freshVar_eq_some hfresh
  refine ⟨hgrows.trans (grows_switch _ _ hs2 hjoin2), ?_, fun f hf => (houses_switch _ _ hf).2, rfl, rfl,
    rfl, Nat.le_refl _, ?_⟩
  · intro id hid hne
    exact unstarted_switch _ _ (leaves_freshVar hfresh id hid) hne
  · show ctx.nextVar.toNat < (ctx.nextVar + 1).toNat
    omega

theorem Computes.from (h : Computes host ctx ctx' dst regs result)
    (hle : ctx0.nextVar.toNat ≤ ctx.nextVar.toNat)
    (hstep : ∀ f, Houses f ctx' → ∀ n, runFrom host f ctx0 regs (n + 1) = runFrom host f ctx regs n) :
    Computes host ctx0 ctx' dst regs result :=
  .after hle fun f hf _ => ⟨1, regs, .refl _ _, hstep f hf, h⟩

theorem Computes.here (h : Computes host ctx ctx' dst regs result)
    (hle : ctx0.nextVar.toNat ≤ ctx.nextVar.toNat)
    (hblock : ctx.currentBlockId = ctx0.currentBlockId)
    (hinsts : ctx.currentInsts = ctx0.currentInsts) : Computes host ctx0 ctx' dst regs result := by
  refine .after hle fun f _ _ => ⟨0, regs, .refl _ _, fun n => ?_, h⟩
  rw [runFrom_congr hblock hinsts]
  rfl

/-- At a join there is the value that comes with the block control came from. -/
theorem Joins.arrive {last : LowerCtx ι} {entries : List (BlockId × VarId)}
    {val : VarId} (h : Joins last join entries dst ctx')
    (hle : ctx.nextVar.toNat ≤ last.nextVar.toNat)
    (hleave : ∀ f, Houses f ctx' → ∀ n,
      runFrom host f ctx regs (n + 1) = enter host f ctx.currentBlockId join regs n)
    (hsource : (Phi.mk dst entries).source ctx.currentBlockId = some val)
    (hval : regs.get val = some v) : Computes host ctx ctx' dst regs (.ok v) := by
  intro f hf hlen
  have hhas : regs.Has dst := Nat.lt_of_lt_of_le h.below (hlen ▸ hf.vars)
  obtain ⟨regs', hset, hretains, hget⟩ := exists_set_retains hhas (Nat.le_trans hle h.above) v
  have hphis : resolvePhis ctx'.currentPhis ctx.currentBlockId regs = some regs' := by
    simp only [h.phis, resolvePhis, hsource, hval, hset]
  refine ⟨1, regs', hretains, hget, ?_⟩
  · intro n
    rw [hleave f hf n, ← h.block]
    exact enter_eq_runFrom hf h.insts hphis n

theorem Outcome.bind_ok (result : Outcome ε α) : result.bind .ok = result := by
  cases result <;> rfl

theorem leave_branch {thenBlock elseBlock : BlockId} (h : regs.get cond = some v) (block : Block ι)
    (hblock : block.terminator = .branch cond thenBlock elseBlock) :
    leave host f block regs () =
      goTo f block (if host.isTruthy v then thenBlock else elseBlock) regs () := by
  simp only [leave, hblock, h]

theorem leave_jump {target : BlockId} (block : Block ι) (hblock : block.terminator = .jump target) :
    leave host f block regs () = goTo f block target regs () := by simp only [leave, hblock]

/-! ## Functions -/

def freshVars : Nat → Emit ι (List VarId)
  | 0 => return []
  | n + 1 => do
    let var ← Emit.freshVar
    let vars ← freshVars n
    return var :: vars

/-- The parameters and blocks of a function; the body gives the variable to return. -/
def lowerBlocks (arity : Nat) (body : List VarId → Emit ι VarId) : Emit ι (List VarId) := do
  let params ← freshVars arity
  let result ← body params
  Emit.finishBlock (.ret result)
  return params

/-- `lower_fn_body`: a function with so many parameters. -/
def lowerFnBody (arity : Nat) (body : List VarId → Emit ι VarId) : Except LowerError (IrFunction ι) :=
  match lowerBlocks arity body .new with
  | .ok params ctx => .ok ⟨params, ctx.finishedBlocks, ctx.nextVar⟩
  | .error err _ => .error err

/-- A call of the function, for a number of blocks. -/
def interpret (host : Host ι α Unit ε) (f : IrFunction ι) (args : List α) (fuel : Nat) :
    Next α Unit ε :=
  match start host f args () with
  | none => .panic
  | some config => run host f fuel config

/-- New variables, one after the other. -/
@[grind cases]
structure NewVars (ctx : LowerCtx ι) (vars : List VarId) (ctx' : LowerCtx ι) : Prop where
  grows : Grows ctx ctx'
  block : ctx'.currentBlockId = ctx.currentBlockId
  phis : ctx'.currentPhis = ctx.currentPhis
  insts : ctx'.currentInsts = ctx.currentInsts
  nodup : vars.Nodup
  above : ∀ var ∈ vars, ctx.nextVar.toNat ≤ var.id.toNat
  below : ∀ var ∈ vars, var.id.toNat < ctx'.nextVar.toNat

theorem wp_freshVars : ∀ (n : Nat) (ctx : LowerCtx ι), wp (freshVars n)
    (fun vars ctx' => vars.length = n ∧ NewVars ctx vars ctx') (fun _ _ => True) ctx
  | 0, ctx => ⟨rfl, .refl ctx, rfl, rfl, rfl, nodup_nil, by simp, by simp⟩
  | n + 1, ctx => by
    refine wp_seq_any (wp_freshVar fun var ctx1 hfresh => hfresh) ?_
    intro var ctx1 hfresh
    refine wp_seq_any (wp_freshVars n ctx1) ?_
    rintro vars ctx2 ⟨hlen, hvars⟩
    have hgrows := grows_freshVar hfresh
    obtain ⟨rfl, rfl, hnext⟩ := freshVar_eq_some hfresh
    refine ⟨congrArg (· + 1) hlen, hgrows.trans hvars.grows, hvars.block, hvars.phis, hvars.insts,
      nodup_cons.mpr ⟨?_, hvars.nodup⟩, ?_, ?_⟩
    all_goals grind

/-- A call binds its arguments to the parameters. -/
theorem exists_bindParams (host : Host ι α Unit ε) : ∀ {params : List VarId} {args : List α}
    {regs : Registers α}, params.Nodup → (∀ param ∈ params, regs.Has param) →
    params.length = args.length → ∃ regs', bindParams host params args regs = some regs' ∧
      regs'.values.length = regs.values.length ∧ Holds regs' (params.zip args) ∧
      ∀ var, var ∉ params → regs'.get var = regs.get var
  | [], [], regs, _, _, _ => ⟨regs, rfl, rfl, by simp [Holds], fun _ _ => rfl⟩
  | param :: params, arg :: args, regs, hnodup, hhas, hlen => by
    rw [nodup_cons] at hnodup
    rw [forall_mem_cons] at hhas
    obtain ⟨regs1, hset⟩ := Registers.exists_set hhas.1 arg
    obtain ⟨regs', hbind, hlen', hholds, hother⟩ := exists_bindParams host hnodup.2
      (fun p hp => (Registers.has_of_set hset).mpr (hhas.2 p hp)) (Nat.succ.inj hlen)
    refine ⟨regs', ?_, hlen'.trans (Registers.length_of_set hset), ?_, ?_⟩
    · simp only [bindParams, head?_cons, Option.getD_some, hset, tail_cons]
      exact hbind
    · refine forall_mem_cons.mpr ⟨?_, hholds⟩
      rw [hother param hnodup.1, Registers.get_of_set hset, Function.update_self]
    · intro var hvar
      rw [mem_cons, not_or] at hvar
      rw [hother var hvar.2, Registers.get_of_set hset, Function.update_of_ne hvar.1]

theorem sound_new : (LowerCtx.new : LowerCtx ι).Sound :=
  ⟨nodup_nil, not_mem_nil, by simp [LowerCtx.new], Nat.zero_lt_one⟩

/-- What a call ends with. -/
def Outcome.next : Outcome ε α → Next α Unit ε
  | .ok v => .done (.ok v)
  | .error err => .done (.error err)
  | .panic => .panic

/-- The function with the blocks that have been lowered, the current one last. -/
def LowerCtx.build (ctx : LowerCtx ι) (params : List VarId) (terminator : Terminator) : IrFunction ι :=
  ⟨params, (ctx.finishBlock terminator).finishedBlocks, ctx.nextVar⟩

section Build

variable {ctx : LowerCtx ι} (hs : ctx.Sound) (params : List VarId) (terminator : Terminator)

include hs

theorem ended_build : Ended (ctx.build params terminator) ctx terminator :=
  IrFunction.block?_of_mem (f := ctx.build params terminator) (nodup_finishBlock terminator hs)
    (mem_append_right _ (mem_singleton_self _))

theorem houses_build : Houses (ctx.build params terminator) ctx := by
  refine ⟨fun block hmem => ?_, ⟨[], terminator, ?_⟩, Nat.le_refl _⟩
  · exact IrFunction.block?_of_mem (f := ctx.build params terminator) (nodup_finishBlock terminator hs)
      (mem_append_left _ hmem)
  · rw [append_nil]
    exact ended_build hs params terminator

theorem block?_first {id : BlockId} (hfirst : ctx.first = some id) :
    (ctx.build params terminator).block? id = (ctx.build params terminator).blocks[0]? := by
  have hids : ((ctx.build params terminator).blocks.map Block.id)[0]? = some id := by
    rw [← hfirst, LowerCtx.first, head?_eq_getElem?, LowerCtx.build, LowerCtx.finishBlock,
      map_append, map_singleton]
  rw [getElem?_map, Option.map_eq_some_iff] at hids
  obtain ⟨block, hblock, rfl⟩ := hids
  rw [hblock]
  exact IrFunction.block?_of_mem (nodup_finishBlock terminator hs) (mem_of_getElem? hblock)

end Build

theorem runFrom_ret {var : VarId} (hended : Ended f ctx (.ret var)) (h : regs.get var = some v)
    (n : Nat) : runFrom host f ctx regs n = .done (.ok v) := by
  unfold Ended at hended
  unfold runFrom
  simp only [hended, drop_length, resume, executeInsts, leave, h]
  rfl

theorem interpret_build (hcalm : Calm host) {params : List VarId}
    (hparams : NewVars .new params ctx) (hlen : params.length = args.length)
    (hgrows : Grows ctx ctx')
    (hcode : ∀ regs, Holds regs (params.zip args) → Computes host ctx ctx' dst regs result) :
    ∃ k, ∀ n, interpret host (ctx'.build params (.ret dst)) args (n + k) = result.next := by
  have hgrows' := hparams.grows.trans hgrows
  have hs := hgrows'.sound sound_new
  have hhouses := houses_build hs params (.ret dst)
  -- the parameters are bound
  have hregs : (Registers.new ctx'.nextVar : Registers α).values.length = ctx'.nextVar.toNat :=
    length_replicate
  have hhas : ∀ param ∈ params, (Registers.new ctx'.nextVar : Registers α).Has param := by
    intro param hparam
    rw [Registers.Has, hregs]
    exact Nat.lt_of_lt_of_le (hparams.below param hparam) hgrows.nextVar
  obtain ⟨regs, hbind, hlength, hholds, -⟩ := exists_bindParams host hparams.nodup hhas hlen
  -- the first block is entered
  have hentry : ∀ n, interpret host (ctx'.build params (.ret dst)) args (n + 1) =
      runFrom host (ctx'.build params (.ret dst)) ctx regs n := by
    intro n
    have hfirst := block?_first hs params (.ret dst) hgrows'.first
    simp only [interpret, start, LowerCtx.build, hbind, Option.map_some]
    rw [runFrom_congr hparams.block hparams.insts]
    exact (run_eq_enter hcalm hfirst _ regs n).trans
      (enter_eq_runFrom (hgrows'.houses _ hhouses) rfl rfl n)
  have hcomputes := hcode regs hholds _ hhouses (hlength.trans hregs)
  cases result with
  | ok v =>
    obtain ⟨k, regs', -, hdst, hrun⟩ := hcomputes
    refine ⟨k + 1, fun n => ?_⟩
    rw [← Nat.add_assoc, hentry, hrun]
    exact runFrom_ret (ended_build hs params _) hdst n
  | error | panic =>
    obtain ⟨k, hrun⟩ := hcomputes
    exact ⟨k + 1, fun n => (hentry (n + k)).trans (hrun n)⟩

theorem interpret_lowerFnBody (hcalm : Calm host) {body : List VarId → Emit ι VarId}
    (hbody : ∀ params, params.length = args.length →
      Emits host (params.zip args) (body params) result) (h : lowerFnBody args.length body = .ok f) :
    ∃ k, ∀ n, interpret host f args (n + k) = result.next := by
  have hlowered : wp (lowerBlocks args.length body) (fun params ctx => ∃ k, ∀ n,
      interpret host ⟨params, ctx.finishedBlocks, ctx.nextVar⟩ args (n + k) = result.next)
      (fun _ _ => True) .new := by
    refine wp_seq_any (wp_freshVars args.length .new) ?_
    rintro params ctx ⟨hlen, hparams⟩
    have hknown : Known ctx (params.zip args) :=
      fun e he => hparams.below e.1 (of_mem_zip he).1
    refine wp_seq_any (hbody params hlen ctx (hparams.grows.sound sound_new) hknown) ?_
    rintro dst ctx' ⟨hgrows, -, -, hcode⟩
    exact interpret_build hcalm hparams hlen hgrows hcode
  unfold lowerFnBody at h
  split at h
  · rename_i params ctx hrun
    cases h
    exact wp_ok hlowered hrun
  · cases h

end Computing

end Clojurust.Ir
