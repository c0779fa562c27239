import Clojurust.Ir.Lower
import Clojurust.Ir.Phis

/-!
# Loops: what lowering builds

* `patchHeader_eq` — the arguments of a `recur` are added to the phis of its header;
* `LowerCtx.WellFormed` — what lowering keeps: the phis of an open loop's header are its
  variables, and their entries come from finished blocks; `wellFormed_lowering`;
* `phisOf_lowerRecur` — the moves of a `recur`'s back edge.
-/

namespace Clojurust.Ir

open Assignment List

/-! ## Patching a header -/

section Patch

variable {ι : Type}

/-- Add the arguments of a `recur` in `block` to the phis, one each. -/
def patchAll (block : BlockId) : List VarId → List Phi → List Phi
  | arg :: args, phi :: phis =>
    { phi with entries := phi.entries ++ [(block, arg)] } :: patchAll block args phis
  | _, phis => phis

theorem modifyPhis_self (id : BlockId) {g : List Phi → List Phi} (hg : ∀ phis, g phis = phis) :
    ∀ blocks : List (Block ι), modifyPhis id g blocks = blocks
  | [] => rfl
  | block :: blocks => by
    unfold modifyPhis
    rw [hg, modifyPhis_self id hg blocks, ite_self]

theorem modifyPhis_comp (id : BlockId) (g g' : List Phi → List Phi) : ∀ blocks : List (Block ι),
    modifyPhis id g (modifyPhis id g' blocks) = modifyPhis id (g ∘ g') blocks
  | [] => rfl
  | block :: blocks => by
    by_cases h : block.id = id
    · simp [modifyPhis, h]
    · simp [modifyPhis, h, modifyPhis_comp id g g' blocks]

theorem map_id_modifyPhis (id : BlockId) (g : List Phi → List Phi) : ∀ blocks : List (Block ι),
    (modifyPhis id g blocks).map Block.id = blocks.map Block.id
  | [] => rfl
  | block :: blocks => by
    by_cases h : block.id = id
    · simp [modifyPhis, h]
    · simp [modifyPhis, h, map_id_modifyPhis id g blocks]

theorem find?_modifyPhis (id k : BlockId) (g : List Phi → List Phi) : ∀ blocks : List (Block ι),
    (modifyPhis id g blocks).find? (fun block => block.id == k) =
      (blocks.find? (fun block => block.id == k)).map
        (fun block => if k = id then { block with phis := g block.phis } else block)
  | [] => rfl
  | block :: blocks => by
    unfold modifyPhis
    by_cases h : block.id = id
    · rw [if_pos h]
      by_cases hk : block.id = k
      · simp [hk, ← h]
      · have hne : k ≠ id := fun hkid => hk (h.trans hkid.symm)
        simp [hk, hne]
    · rw [if_neg h]
      by_cases hk : block.id = k
      · grind
      · simp [hk, find?_modifyPhis id k g blocks]

theorem foldl_pushEntry_cons (block : BlockId) (phi : Phi) : ∀ (args : List VarId) (k : Nat)
    (phis : List Phi),
    (args.zipIdx (k + 1)).foldl (fun phis arg => pushEntry arg.2 (block, arg.1) phis) (phi :: phis) =
      phi :: (args.zipIdx k).foldl (fun phis arg => pushEntry arg.2 (block, arg.1) phis) phis
  | [], _, _ => rfl
  | arg :: args, k, phis => by
    exact foldl_pushEntry_cons block phi args (k + 1) _

theorem foldl_pushEntry (block : BlockId) : ∀ (args : List VarId) (phis : List Phi),
    args.zipIdx.foldl (fun phis arg => pushEntry arg.2 (block, arg.1) phis) phis =
      patchAll block args phis
  | [], phis => by cases phis <;> rfl
  | arg :: args, [] => by
    have hnil : ∀ (args : List VarId) (k : Nat), (args.zipIdx k).foldl
        (fun phis arg => pushEntry arg.2 (block, arg.1) phis) [] = [] := by
      intro args
      induction args with
      | nil => intro k; rfl
      | cons arg args ih =>
        intro k
        simp only [zipIdx_cons, foldl_cons, pushEntry]
        exact ih (k + 1)
    exact hnil (arg :: args) 0
  | arg :: args, phi :: phis => by
    simp only [zipIdx_cons, foldl_cons, pushEntry, patchAll]
    rw [foldl_pushEntry_cons, foldl_pushEntry block args phis]

theorem foldl_modifyPhis {β : Type} (id : BlockId) (g : β → List Phi → List Phi) : ∀ (l : List β)
    (blocks : List (Block ι)),
    l.foldl (fun blocks x => modifyPhis id (g x) blocks) blocks =
      modifyPhis id (fun phis => l.foldl (fun phis x => g x phis) phis) blocks
  | [], blocks => (modifyPhis_self id (fun _ => rfl) blocks).symm
  | x :: l, blocks => by
    simp only [foldl_cons]
    rw [foldl_modifyPhis id g l, modifyPhis_comp]
    rfl

theorem patchHeader_eq (header block : BlockId) (args : List VarId) (ctx : LowerCtx ι) :
    ctx.patchHeader header block args =
      { ctx with finishedBlocks := modifyPhis header (patchAll block args) ctx.finishedBlocks } := by
  have hfold : ∀ (l : List (VarId × Nat)) (ctx : LowerCtx ι),
      l.foldl (fun ctx arg => ctx.updatePhiInHeader header arg.2 block arg.1) ctx =
        { ctx with
          finishedBlocks := l.foldl
            (fun blocks arg => modifyPhis header (pushEntry arg.2 (block, arg.1)) blocks)
            ctx.finishedBlocks } := by
    intro l
    induction l with
    | nil => intro ctx; rfl
    | cons arg l ih =>
      intro ctx
      simp only [foldl_cons]
      rw [ih]
      rfl
  unfold LowerCtx.patchHeader
  rw [hfold, foldl_modifyPhis]
  simp only [foldl_pushEntry]

theorem patchAll_nil (block : BlockId) (phis : List Phi) : patchAll block [] phis = phis := by
  cases phis <;> rfl

theorem map_dst_patchAll (block : BlockId) : ∀ (args : List VarId) (phis : List Phi),
    (patchAll block args phis).map Phi.dst = phis.map Phi.dst
  | [], phis => by rw [patchAll_nil]
  | _ :: _, [] => rfl
  | _ :: args, phi :: phis => by simp [patchAll, map_dst_patchAll block args phis]

variable {block p : BlockId}

theorem mem_entries_patchAll {entry : BlockId × VarId} :
    ∀ {args : List VarId} {phis : List Phi} {phi : Phi}, phi ∈ patchAll block args phis →
      entry ∈ phi.entries → (∃ phi0 ∈ phis, entry ∈ phi0.entries) ∨ entry.1 = block
  | [], phis, phi, hphi, hentry => by
    exact .inl ⟨phi, hphi, hentry⟩
  | _ :: _, [], _, hphi, _ => by cases hphi
  | arg :: args, phi0 :: phis, phi, hphi, hentry => by
    rcases mem_cons.mp hphi with rfl | hphi
    · grind
    · rcases mem_entries_patchAll hphi hentry with ⟨phi1, hphi1, h⟩ | h
      · grind
      · exact .inr h

theorem source_push_of_ne (h : block ≠ p) (arg : VarId) (phi : Phi) :
    Phi.source { phi with entries := phi.entries ++ [(block, arg)] } p = phi.source p := by
  unfold Phi.source
  simp [h]

theorem moves_patchAll_of_ne (h : block ≠ p) : ∀ (args : List VarId)
    (phis : List Phi), moves (patchAll block args phis) p = moves phis p
  | [], phis => by rw [patchAll_nil]
  | _ :: _, [] => rfl
  | arg :: args, phi :: phis => by
    have hsource := source_push_of_ne h arg phi
    have ih := moves_patchAll_of_ne h args phis
    simp only [patchAll, moves, filterMap_cons, hsource] at ih ⊢
    rw [ih]

theorem moves_eq_nil {phis : List Phi}
    (h : ∀ phi ∈ phis, ∀ entry ∈ phi.entries, entry.1 ≠ p) : moves phis p = [] := by
  rw [eq_nil_iff_forall_not_mem]
  intro m hm
  obtain ⟨phi, hphi, hsource, -⟩ := mem_moves_iff.mp hm
  have hnone : phi.source p = none := by
    unfold Phi.source
    grind
  rw [hnone] at hsource
  cases hsource

/-- A `recur` moves its arguments into the variables of the loop. -/
theorem moves_patchAll : ∀ {args : List VarId} {phis : List Phi},
    (∀ phi ∈ phis, ∀ entry ∈ phi.entries, entry.1 ≠ block) →
      moves (patchAll block args phis) block = (phis.map Phi.dst).zip args
  | [], phis, h => by
    rw [patchAll_nil, moves_eq_nil h, zip_nil_right]
  | _ :: _, [], _ => rfl
  | arg :: args, phi :: phis, h => by
    have hsource : Phi.source { phi with entries := phi.entries ++ [(block, arg)] } block =
        some arg := by
      unfold Phi.source
      rw [find?_append, find?_eq_none.mpr]
      · simp
      · grind
    unfold patchAll
    rw [moves_cons_some hsource, moves_patchAll (fun phi' hphi' => h phi' (.tail _ hphi'))]
    rfl

end Patch

/-! ## What lowering keeps -/

section Lowering

variable {ι : Type}

/-- The phis of the header are the loop's variables, with entries from finished blocks. -/
def LowerCtx.HeaderOf (ctx : LowerCtx ι) (header : BlockId) (vars : List VarId) : Prop :=
  ∃ phis, ctx.phisOf header = some phis ∧ phis.map Phi.dst = vars ∧ vars.Nodup ∧
    ∀ phi ∈ phis, ∀ entry ∈ phi.entries, entry.1 ∈ ctx.finishedBlocks.map Block.id

@[grind cases]
structure LowerCtx.WellFormed (ctx : LowerCtx ι) : Prop where
  below : ∀ block ∈ ctx.finishedBlocks, block.id.id.toNat < ctx.nextBlock.toNat
  currentBelow : ctx.currentBlockId.id.toNat < ctx.nextBlock.toNat
  unfinished : ctx.currentBlockId ∉ ctx.finishedBlocks.map Block.id
  headers : ∀ loop ∈ ctx.loopHeaders, ctx.HeaderOf loop.1 loop.2

/-- Blocks stay, their phis keep their destinations and the entries from finished blocks. -/
@[grind cases]
structure Extends (ctx ctx' : LowerCtx ι) : Prop where
  finished : ∀ id ∈ ctx.finishedBlocks.map Block.id, id ∈ ctx'.finishedBlocks.map Block.id
  phis : ∀ id phis, ctx.phisOf id = some phis → ∃ phis', ctx'.phisOf id = some phis' ∧
    phis'.map Phi.dst = phis.map Phi.dst ∧
    (∀ p ∈ ctx.finishedBlocks.map Block.id, moves phis' p = moves phis p) ∧
    (∀ phi ∈ phis', ∀ entry ∈ phi.entries, (∃ phi0 ∈ phis, entry ∈ phi0.entries) ∨
      entry.1 ∈ ctx'.finishedBlocks.map Block.id)

variable {ctx ctx' : LowerCtx ι} {header : BlockId} {vars : List VarId} {terminator : Terminator}
  {nilConst : VarId → ι} {args : List VarId} {loops : List (BlockId × List VarId)}

theorem Extends.of_same (hf : ctx'.finishedBlocks = ctx.finishedBlocks)
    (hc : ctx'.currentBlockId = ctx.currentBlockId) (hp : ctx'.currentPhis = ctx.currentPhis) :
    Extends ctx ctx' := by
  refine ⟨?_, ?_⟩
  · grind
  · intro id phis h
    refine ⟨phis, ?_, rfl, fun _ _ => rfl, fun phi hphi entry hentry => .inl ⟨phi, hphi, hentry⟩⟩
    unfold LowerCtx.phisOf at h ⊢
    grind

theorem Extends.trans {ctx1 ctx2 ctx3 : LowerCtx ι} (h : Extends ctx1 ctx2)
    (h' : Extends ctx2 ctx3) : Extends ctx1 ctx3 := by
  refine ⟨fun id hid => h'.finished id (h.finished id hid), ?_⟩
  grind

theorem Extends.headerOf (h : Extends ctx ctx')
    (hh : ctx.HeaderOf header vars) : ctx'.HeaderOf header vars := by
  obtain ⟨phis, hphis, hdst, hnodup, hentries⟩ := hh
  obtain ⟨phis', hphis', hdst', -, hentries'⟩ := h.phis header phis hphis
  refine ⟨phis', hphis', hdst'.trans hdst, hnodup, ?_⟩
  grind

/-- The block is finished, with the arguments of a `recur` or without, and another one begins. -/
theorem LowerCtx.WellFormed.finish (hwf : ctx.WellFormed) (header : BlockId) (args : List VarId)
    {insts : List ι} (hf : ctx'.finishedBlocks =
      modifyPhis header (patchAll ctx.currentBlockId args) ctx.finishedBlocks ++
        [⟨ctx.currentBlockId, ctx.currentPhis, insts, terminator⟩])
    (hnext : ctx.nextBlock.toNat ≤ ctx'.nextBlock.toNat)
    (hbelow : ctx'.currentBlockId.id.toNat < ctx'.nextBlock.toNat)
    (hnew : ctx'.currentBlockId ∉ ctx.finishedBlocks.map Block.id)
    (hne : ctx'.currentBlockId ≠ ctx.currentBlockId)
    (hloops : ctx'.loopHeaders = ctx.loopHeaders) : ctx'.WellFormed ∧ Extends ctx ctx' := by
  have hids : ctx'.finishedBlocks.map Block.id =
      ctx.finishedBlocks.map Block.id ++ [ctx.currentBlockId] := by
    rw [hf, map_append, map_id_modifyPhis]
    rfl
  have hext : Extends ctx ctx' := by
    refine ⟨by grind, ?_⟩
    intro id phis hphis
    unfold LowerCtx.phisOf at hphis ⊢
    rw [hids, hf, find?_append, find?_modifyPhis]
    cases hfind : ctx.finishedBlocks.find? (fun block => block.id == id) with
    | some block =>
      rw [hfind] at hphis
      cases hphis
      by_cases hid : id = header
      · refine ⟨patchAll ctx.currentBlockId args block.phis, by simp [hid], map_dst_patchAll _ _ _,
          ?_, ?_⟩
        · intro p hp
          refine moves_patchAll_of_ne ?_ _ _
          grind
        · intro phi hphi entry hentry
          rcases mem_entries_patchAll hphi hentry with hold | hnew
          all_goals grind
      · exact ⟨block.phis, by simp [hid], rfl, fun _ _ => rfl,
          fun phi hphi entry hentry => .inl ⟨phi, hphi, hentry⟩⟩
    | none => grind
  refine ⟨⟨?_, hbelow, by grind, ?_⟩, hext⟩
  · intro block hblock
    have hid : block.id ∈ ctx.finishedBlocks.map Block.id ++ [ctx.currentBlockId] := by
      rw [← hids]
      exact mem_map_of_mem hblock
    grind
  · rw [hloops]
    exact fun loop hloop => hext.headerOf (hwf.headers loop hloop)

theorem LowerCtx.WellFormed.finish_next (hwf : ctx.WellFormed) (header : BlockId) (args : List VarId)
    {insts : List ι} (hf : ctx'.finishedBlocks =
      modifyPhis header (patchAll ctx.currentBlockId args) ctx.finishedBlocks ++
        [⟨ctx.currentBlockId, ctx.currentPhis, insts, terminator⟩])
    (hcurrent : ctx'.currentBlockId = ⟨ctx.nextBlock⟩)
    (hnext : ctx'.nextBlock.toNat = ctx.nextBlock.toNat + 1)
    (hloops : ctx'.loopHeaders = ctx.loopHeaders) : ctx'.WellFormed ∧ Extends ctx ctx' := by
  refine hwf.finish header args hf (by omega) ?_ ?_ ?_ hloops
  all_goals grind

theorem emitLoopPhis_spec {initBlock : BlockId} : ∀ {inits : List VarId} {ctx ctx' : LowerCtx ι}
    {vars : List VarId}, LowerCtx.emitLoopPhis initBlock inits ctx = some (vars, ctx') →
      (∃ nextVar, ctx' = { ctx with
        currentPhis := ctx.currentPhis ++
          (vars.zip inits).map (fun m => ⟨m.1, [(initBlock, m.2)]⟩)
        nextVar := nextVar }) ∧
      vars.length = inits.length ∧ vars.Nodup ∧
      ∀ var ∈ vars, ctx.nextVar.toNat ≤ var.id.toNat
  | [], ctx, ctx', vars, h => by
    cases h
    exact ⟨⟨ctx.nextVar, by simp⟩, rfl, nodup_nil, by simp⟩
  | init :: inits, ctx, ctx', vars, h => by
    unfold LowerCtx.emitLoopPhis at h
    cases hvar : ctx.freshVar with
    | none => simp [hvar] at h
    | some fresh =>
      obtain ⟨var, ctx1⟩ := fresh
      obtain ⟨rfl, rfl, hsucc⟩ := freshVar_eq_some hvar
      simp only [hvar] at h
      cases hrest : LowerCtx.emitLoopPhis initBlock inits
          (LowerCtx.emitPhi { ctx with nextVar := ctx.nextVar + 1 } ⟨ctx.nextVar⟩
            [(initBlock, init)]) with
      | none => simp [hrest] at h
      | some =>
        simp only [hrest, Option.some.injEq, Prod.mk.injEq] at h
        obtain ⟨rfl, rfl⟩ := h
        obtain ⟨⟨nextVar, hctx⟩, hlen, hnodup, hge⟩ := emitLoopPhis_spec hrest
        simp only [LowerCtx.emitPhi, hsucc] at hge
        refine ⟨⟨nextVar, ?_⟩, ?_, ?_, ?_⟩
        · rw [hctx]
          simp [LowerCtx.emitPhi]
        all_goals grind

theorem phisOf_current (h : ctx.currentBlockId ∉ ctx.finishedBlocks.map Block.id) :
    ctx.phisOf ctx.currentBlockId = some ctx.currentPhis := by
  have hnone : ctx.finishedBlocks.find? (fun block => block.id == ctx.currentBlockId) = none := by
    rw [find?_eq_none]
    intro block hblock heq
    refine h ?_
    rw [← beq_iff_eq.mp heq]
    exact mem_map_of_mem hblock
  unfold LowerCtx.phisOf
  rw [hnone]
  simp

theorem openLoop_spec {inits : List VarId}
    (hwf : ctx.WellFormed) (h : ctx.openLoop inits = some (header, vars, ctx')) :
    ctx'.WellFormed ∧ Extends ctx ctx' ∧ ctx'.HeaderOf header vars := by
  unfold LowerCtx.openLoop at h
  cases hblock : ctx.freshBlock with
  | none => simp [hblock] at h
  | some fresh =>
    obtain ⟨id, ctx1⟩ := fresh
    obtain ⟨rfl, rfl, hsucc⟩ := freshBlock_eq_some hblock
    simp only [hblock] at h
    cases hphis : LowerCtx.emitLoopPhis ctx.currentBlockId inits
        (LowerCtx.startBlock (LowerCtx.finishBlock { ctx with nextBlock := ctx.nextBlock + 1 }
          (.jump ⟨ctx.nextBlock⟩)) ⟨ctx.nextBlock⟩) with
    | none => simp [hphis] at h
    | some emitted =>
      obtain ⟨vars1, ctx2⟩ := emitted
      simp only [hphis, Option.some.injEq, Prod.mk.injEq] at h
      obtain ⟨rfl, rfl, rfl⟩ := h
      obtain ⟨⟨nextVar, hctx⟩, hlen, hnodup, -⟩ := emitLoopPhis_spec hphis
      obtain ⟨hwf', hext⟩ : ctx2.WellFormed ∧ Extends ctx ctx2 := by
        subst hctx
        exact hwf.finish_next ⟨ctx.nextBlock⟩ [] (by rw [modifyPhis_self _ (patchAll_nil _)]; rfl)
          rfl hsucc rfl
      subst hctx
      refine ⟨hwf', hext, _, phisOf_current hwf'.unfinished, ?_, hnodup, ?_⟩
      · simp only [LowerCtx.startBlock, LowerCtx.finishBlock, nil_append, map_map]
        exact map_fst_zip (Nat.le_of_eq hlen)
      · grind [LowerCtx.startBlock, LowerCtx.finishBlock]

theorem lowerRecur_spec (hwf : ctx.WellFormed) (hloop : ctx.loopHeaders = (header, vars) :: loops)
    (h : ctx.lowerRecur nilConst args = some ctx') :
    ctx'.WellFormed ∧ Extends ctx ctx' ∧ ctx'.finishedBlocks =
        modifyPhis header (patchAll ctx.currentBlockId args) ctx.finishedBlocks ++
          [⟨ctx.currentBlockId, ctx.currentPhis, ctx.currentInsts, .recurJump header args⟩] := by
  unfold LowerCtx.lowerRecur at h
  simp only [hloop] at h
  rw [patchHeader_eq] at h
  generalize hctx1 : LowerCtx.finishBlock { ctx with
      finishedBlocks := modifyPhis header (patchAll ctx.currentBlockId args) ctx.finishedBlocks }
      (.recurJump header args) = ctx1 at h
  cases hblock : ctx1.freshBlock with
  | none => simp [hblock] at h
  | some fresh =>
    obtain ⟨id, ctx2⟩ := fresh
    obtain ⟨hid, hctx2, hsucc⟩ := freshBlock_eq_some hblock
    simp only [hblock] at h
    cases hvar : (ctx2.startBlock id).freshVar with
    | none => simp [hvar] at h
    | some =>
      obtain ⟨-, hctx3, -⟩ := freshVar_eq_some hvar
      simp only [hvar, Option.some.injEq] at h
      have hfinished : ctx'.finishedBlocks =
          modifyPhis header (patchAll ctx.currentBlockId args) ctx.finishedBlocks ++
            [⟨ctx.currentBlockId, ctx.currentPhis, ctx.currentInsts, .recurJump header args⟩] := by
        rw [← h, hctx3, hctx2, ← hctx1]
        rfl
      have hcurrent : ctx'.currentBlockId = ⟨ctx.nextBlock⟩ := by
        rw [← h, hctx3, hid, ← hctx1]
        rfl
      have hnext : ctx'.nextBlock.toNat = ctx.nextBlock.toNat + 1 := by
        rw [← h, hctx3, hctx2, ← hctx1]
        rw [← hctx1] at hsucc
        exact hsucc
      have hloops : ctx'.loopHeaders = ctx.loopHeaders := by
        rw [← h, hctx3, hctx2, ← hctx1]
        rfl
      obtain ⟨hwf', hext⟩ := hwf.finish_next header args hfinished hcurrent hnext hloops
      exact ⟨hwf', hext, hfinished⟩

theorem emitPhis_eq : ∀ (phis : List Phi) (ctx : LowerCtx ι),
    phis.foldl (fun ctx phi => ctx.emitPhi phi.dst phi.entries) ctx =
      { ctx with currentPhis := ctx.currentPhis ++ phis }
  | [], ctx => by simp
  | phi :: phis, ctx => by
    rw [foldl_cons, emitPhis_eq phis]
    simp [LowerCtx.emitPhi]

theorem LowerCtx.WellFormed.of_same (hwf : ctx.WellFormed)
    (hf : ctx'.finishedBlocks = ctx.finishedBlocks)
    (hc : ctx'.currentBlockId = ctx.currentBlockId) (hp : ctx'.currentPhis = ctx.currentPhis)
    (hnext : ctx.nextBlock.toNat ≤ ctx'.nextBlock.toNat)
    (hloops : ∀ loop ∈ ctx'.loopHeaders, ctx.HeaderOf loop.1 loop.2) :
    ctx'.WellFormed ∧ Extends ctx ctx' := by
  have hext := Extends.of_same hf hc hp
  refine ⟨⟨?_, ?_, ?_, ?_⟩, hext⟩
  · grind
  · grind
  · grind
  · exact fun loop hloop => hext.headerOf (hloops loop hloop)

attribute [local simp] LowerCtx.new

theorem wellFormed_new : (LowerCtx.new : LowerCtx ι).WellFormed :=
  ⟨by simp, by simp, by simp, by simp⟩

/-- **Lowering keeps contexts well formed** and only adds to the function. -/
theorem wellFormed_lowering
    (h : Lowering nilConst ctx ctx') : ctx.WellFormed → ctx'.WellFormed ∧ Extends ctx ctx' := by
  induction h with
  | refl => exact fun hwf => ⟨hwf, .of_same rfl rfl rfl⟩
  | freshVar _ hvar ih =>
    intro hwf
    obtain ⟨hwf1, hext⟩ := ih hwf
    rw [(freshVar_eq_some hvar).2.1]
    refine And.imp_right hext.trans ?_
    exact hwf1.of_same rfl rfl rfl (Nat.le_refl _) hwf1.headers
  | freshBlock _ hblock ih =>
    intro hwf
    obtain ⟨hwf1, hext⟩ := ih hwf
    obtain ⟨-, hctx, hsucc⟩ := freshBlock_eq_some hblock
    rw [hctx]
    refine And.imp_right hext.trans ?_
    exact hwf1.of_same rfl rfl rfl (hsucc ▸ Nat.le_succ _) hwf1.headers
  | emit inst _ ih =>
    intro hwf
    obtain ⟨hwf1, hext⟩ := ih hwf
    refine And.imp_right hext.trans ?_
    exact hwf1.of_same rfl rfl rfl (Nat.le_refl _) hwf1.headers
  | switchTo terminator id phis _ hid ih =>
    intro hwf
    obtain ⟨hwf1, hext⟩ := ih hwf
    obtain ⟨hbelow, hnew, hne⟩ := hid
    rw [emitPhis_eq]
    refine And.imp_right hext.trans ?_
    exact hwf1.finish id [] (by rw [modifyPhis_self _ (patchAll_nil _)]; rfl) (Nat.le_refl _) hbelow
      hnew hne rfl
  | openLoop inits _ hopen _ ih ih' =>
    intro hwf
    obtain ⟨hwf1, hext1⟩ := ih hwf
    obtain ⟨hwf2, hext2, hheader⟩ := openLoop_spec hwf1 hopen
    obtain ⟨hwf3, hext3⟩ := ih' hwf2
    refine And.imp_right ((hext1.trans hext2).trans hext3).trans ?_
    refine hwf3.of_same rfl rfl rfl (Nat.le_refl _) ?_
    intro loop hloop
    rcases mem_cons.mp hloop with rfl | hloop
    · exact hext3.headerOf hheader
    · exact hwf3.headers loop hloop
  | popLoop _ ih =>
    intro hwf
    obtain ⟨hwf1, hext⟩ := ih hwf
    refine And.imp_right hext.trans ?_
    refine hwf1.of_same rfl rfl rfl (Nat.le_refl _) ?_
    exact fun loop hloop => hwf1.headers loop (mem_of_mem_tail hloop)
  | @lowerRecur ctx ctx1 ctx2 args _ hrecur ih =>
    intro hwf
    obtain ⟨hwf1, hext⟩ := ih hwf
    cases hloops : ctx1.loopHeaders with
    | nil => simp [LowerCtx.lowerRecur, hloops] at hrecur
    | cons =>
      obtain ⟨hwf2, hext2, -⟩ := lowerRecur_spec hwf1 hloops hrecur
      exact ⟨hwf2, hext.trans hext2⟩

/-- The moves of the edge from a `recur` to the header of its loop. The header is patched only
when it is finished: a `recur` in the header block itself moves nothing. -/
def recurMoves (header recurBlock : BlockId) (vars args : List VarId) : List (VarId × VarId) :=
  if header = recurBlock then [] else vars.zip args

theorem phisOf_lowerRecur (hwf : ctx.WellFormed) (hloop : ctx.loopHeaders = (header, vars) :: loops)
    (h : ctx.lowerRecur nilConst args = some ctx') :
    ∃ phis, ctx'.phisOf header = some phis ∧ phis.map Phi.dst = vars ∧ vars.Nodup ∧
      moves phis ctx.currentBlockId = recurMoves header ctx.currentBlockId vars args := by
  have hmem : (header, vars) ∈ ctx.loopHeaders := by
    rw [hloop]
    exact .head _
  obtain ⟨phis, hphis, hdst, hnodup, hentries⟩ := hwf.headers _ hmem
  obtain ⟨-, -, hfinished⟩ := lowerRecur_spec hwf hloop h
  have hother : ∀ phi ∈ phis, ∀ entry ∈ phi.entries, entry.1 ≠ ctx.currentBlockId := by
    intro phi hphi entry hentry heq
    exact hwf.unfinished (heq ▸ hentries phi hphi entry hentry)
  unfold LowerCtx.phisOf recurMoves at *
  rw [hfinished, find?_append, find?_modifyPhis]
  cases hfind : ctx.finishedBlocks.find? (fun block => block.id == header) with
  | some block =>
    have hne : header ≠ ctx.currentBlockId := by
      intro heq
      have hid : block.id = header := by simpa using find?_some hfind
      have hnot := hwf.unfinished
      rw [← heq, ← hid] at hnot
      exact hnot (mem_map_of_mem (mem_of_find?_eq_some hfind))
    simp only [hfind, Option.some.injEq] at hphis
    subst hphis
    refine ⟨patchAll ctx.currentBlockId args block.phis, by simp,
      (map_dst_patchAll _ _ _).trans hdst, hnodup, ?_⟩
    rw [if_neg hne, moves_patchAll hother, hdst]
  | none =>
    simp only [hfind, Option.ite_none_right_eq_some, Option.some.injEq] at hphis
    obtain ⟨hheader, rfl⟩ := hphis
    refine ⟨ctx.currentPhis, by simp [hheader], hdst, hnodup, ?_⟩
    rw [if_pos hheader.symm, moves_eq_nil hother]

end Lowering

end Clojurust.Ir
