import Clojurust.Ir.Loop
import Mathlib.Data.List.Forall2

/-!
# Loops: the next iteration, lowered and walked

* `rebind` — what the tree-walker binds for the next iteration (`eval_loop` in
  `crates/cljrs-interp/src/special.rs`), `SeesRebound` — the lowered loop sees the same;
* `RecurSafe` — the condition on the `recur`, `seesRebound_iff`;
* `phis_are_parallel_iff_untangled` — the interpreter's phis, over edges, runs and loops.
-/

namespace Clojurust.Ir

open Assignment

/-! ## The next iteration -/

section NextIteration

/-- The error of the tree-walker for a `recur` with the wrong number of arguments. -/
structure Arity where
  name : String
  expected : String
  got : Nat

/-- What the tree-walker binds for the next iteration (`eval_loop`). -/
def rebind {α : Type} (patterns : Nat) (newVals : List α) : Except Arity (List α) :=
  if newVals.length = patterns then .ok newVals
  else .error ⟨"recur", toString patterns, newVals.length⟩

variable {α : Type} {phis : List Phi} {header recurBlock : BlockId} {vars args : List VarId}
  {regs : Registers α}

/-- The next iteration of the lowered loop sees the values that the tree-walker binds. -/
def SeesRebound (vars args : List VarId) (regs : Registers α) (entered : Option (Registers α)) :
    Prop :=
  ∃ newVals bound regs', args.map regs.get = newVals.map some ∧
    rebind vars.length newVals = .ok bound ∧ entered = some regs' ∧
    vars.map regs'.get = bound.map some

/-- The condition on a `recur`: its arguments are as many as the loop's variables, and their
moves are untangled; in the header block itself, the arguments already are in the variables. -/
def RecurSafe (header recurBlock : BlockId) (vars args : List VarId) (regs : Registers α) : Prop :=
  args.length = vars.length ∧ (∀ arg ∈ args, regs.get arg ≠ none) ∧
    if header = recurBlock then args.map regs.get = vars.map regs.get
    else (∀ var ∈ vars, regs.Has var) ∧ (vars.zip args).Pairwise (Undisturbed regs.get)

instance [DecidableEq α] (header recurBlock : BlockId) (vars args : List VarId)
    (regs : Registers α) : Decidable (RecurSafe header recurBlock vars args regs) := by
  unfold RecurSafe
  infer_instance

theorem exists_values_iff (regs : Registers α) : ∀ args : List VarId,
    (∃ vals : List α, args.map regs.get = vals.map some) ↔ ∀ arg ∈ args, regs.get arg ≠ none
  | [] => ⟨fun _ => by simp, fun _ => ⟨[], rfl⟩⟩
  | arg :: args => by
    rw [List.forall_mem_cons, ← exists_values_iff regs args]
    constructor
    · rintro ⟨vals, h⟩
      cases vals with
      | nil => cases h
      | cons => grind
    · rintro ⟨harg, vals, h⟩
      obtain ⟨val, hval⟩ := Option.ne_none_iff_exists'.mp harg
      exact ⟨val :: vals, by simp [hval, h]⟩

theorem seesRebound_iff_exists {entered : Option (Registers α)} :
    SeesRebound vars args regs entered ↔
      args.length = vars.length ∧ (∀ arg ∈ args, regs.get arg ≠ none) ∧
        ∃ regs', entered = some regs' ∧ vars.map regs'.get = args.map regs.get := by
  rw [← exists_values_iff]
  unfold SeesRebound rebind
  constructor
  · rintro ⟨newVals, bound, regs', hargs, hbound, hentered, hvars⟩
    have hlen : args.length = newVals.length := by
      have := congrArg List.length hargs
      simpa using this
    grind
  · rintro ⟨hlen, ⟨newVals, hargs⟩, regs', hentered, hvars⟩
    have hlen' : args.length = newVals.length := by
      have := congrArg List.length hargs
      simpa using this
    grind

theorem map_eq_map_iff_zip {β γ δ : Type} {f : β → δ} {g : γ → δ} {l : List β} {l' : List γ}
    (hlen : l.length = l'.length) : l.map f = l'.map g ↔ ∀ m ∈ l.zip l', f m.1 = g m.2 := by
  rw [← List.forall₂_eq_eq_eq, List.forall₂_map_left_iff, List.forall₂_map_right_iff,
    List.forall₂_iff_zip]
  simp [hlen]

/-- **When the next iteration sees the values that the tree-walker binds.** -/
theorem seesRebound_iff (hnodup : vars.Nodup)
    (hmoves : moves phis recurBlock = recurMoves header recurBlock vars args) :
    SeesRebound vars args regs (resolvePhis phis recurBlock regs) ↔
      RecurSafe header recurBlock vars args regs := by
  rw [seesRebound_iff_exists]
  unfold RecurSafe
  refine and_congr_right fun hlen => and_congr_right fun hinit => ?_
  unfold recurMoves at hmoves
  by_cases hheader : header = recurBlock
  · -- the header was not patched: entering it changes nothing
    rw [if_pos hheader] at hmoves ⊢
    have hstay : ∀ regs', resolvePhis phis recurBlock regs = some regs' → regs'.get = regs.get := by
      intro regs' hres
      rw [(get_resolvePhis hres).1, hmoves]
      rfl
    constructor
    · grind
    · intro hvars
      have hregs : ∀ m ∈ moves phis recurBlock, regs.Has m.1 ∧ regs.get m.2 ≠ none := by
        simp [hmoves]
      obtain ⟨regs', hres⟩ := exists_resolvePhis hregs
      grind
  · rw [if_neg hheader] at hmoves ⊢
    have hfst : (vars.zip args).map Prod.fst = vars := List.map_fst_zip (Nat.le_of_eq hlen.symm)
    have hmem : ∀ m ∈ vars.zip args, m.1 ∈ vars ∧ m.2 ∈ args := fun m hm => List.of_mem_zip hm
    have hpar := seq_eq_par_iff (f := regs.get) (hfst.symm ▸ hnodup)
    constructor
    · rintro ⟨regs', hres, hvars⟩
      obtain ⟨hseq, -, hhas⟩ := get_resolvePhis hres
      rw [hmoves] at hseq hhas
      refine ⟨?_, hpar.mp ?_⟩
      · grind
      · rw [← hseq]
        exact (map_eq_map_iff_zip hlen.symm).mp hvars
    · rintro ⟨hhas, hpair⟩
      have hregs : ∀ m ∈ moves phis recurBlock, regs.Has m.1 ∧ regs.get m.2 ≠ none := by
        rw [hmoves]
        exact fun m hm => ⟨hhas m.1 (hmem m hm).1, hinit m.2 (hmem m hm).2⟩
      obtain ⟨regs', hres⟩ := exists_resolvePhis hregs
      refine ⟨regs', hres, (map_eq_map_iff_zip hlen.symm).mpr ?_⟩
      rw [(get_resolvePhis hres).1, hmoves]
      exact hpar.mpr hpair

end NextIteration

/-- **Where phis are a parallel assignment, and a `recur` rebinds the variables of its loop.**
An edge is entered in parallel exactly when it is untangled; a run over untangled edges is a run
of the parallel semantics; and in every function that is lowered, the iteration after a `recur`
sees the values that the tree-walker binds exactly when the `recur` is safe. -/
theorem phis_are_parallel_iff_untangled {ι α ω ε : Type} (nilConst : VarId → ι) :
    (∀ f : IrFunction ι, f.DistinctPhis → ∀ block ∈ f.blocks, ∀ (prev : BlockId)
      (regs : Registers α),
      ParallelEntry block.phis prev regs (resolvePhis block.phis prev regs) ↔
        Untangled block.phis prev regs) ∧
    (∀ (host : Host ι α ω ε) (f : IrFunction ι), f.DistinctPhis → ∀ (fuel : Nat)
      (config : Config α ω),
      (∀ n < fuel, ∀ config', run host f n config = .goto config' → config'.Untangled f) →
      run host f fuel config = runWith host f parallelPhis fuel config) ∧
    (∀ (ctx ctx' ctx'' : LowerCtx ι) (header : BlockId) (vars args : List VarId)
      (loops : List (BlockId × List VarId)) (phis : List Phi) (regs : Registers α),
      Lowering nilConst LowerCtx.new ctx → ctx.loopHeaders = (header, vars) :: loops →
      ctx.lowerRecur nilConst args = some ctx' → Lowering nilConst ctx' ctx'' →
      ctx''.phisOf header = some phis →
      (SeesRebound vars args regs (resolvePhis phis ctx.currentBlockId regs) ↔
        RecurSafe header ctx.currentBlockId vars args regs)) := by
  refine ⟨?_, ?_, ?_⟩
  · intro f hssa block hblock prev regs
    exact resolvePhis_parallel_iff (hssa block hblock)
  · intro host f hssa fuel config h
    exact run_eq_parallel host hssa fuel config h
  · intro ctx ctx' ctx'' header vars args loops phis regs hlow hloop hrecur hlow' hphis
    obtain ⟨hwf, -⟩ := wellFormed_lowering hlow wellFormed_new
    obtain ⟨hwf', -, hfinished⟩ := lowerRecur_spec hwf hloop hrecur
    obtain ⟨phis1, hphis1, hdst1, hnodup, hmoves1⟩ := phisOf_lowerRecur hwf hloop hrecur
    obtain ⟨-, hext⟩ := wellFormed_lowering hlow' hwf'
    refine seesRebound_iff hnodup ?_
    grind

/-! ## A loop that swaps its variables -/

section Swap

/-- An instruction that loads a constant. -/
abbrev Load := VarId × Nat

def loadNil (var : VarId) : Load := (var, 0)

/-- A runtime of numbers, with `0` for `nil`, in which instructions only load constants. -/
def loadHost : Host Load Nat Unit String where
  nil := 0
  isTruthy value := value != 0
  charge _ world := .ok world
  osrEnter _ _ world := (none, world)
  executeInst inst regs world :=
    match regs.set inst.1 inst.2 with
    | some regs => .ok (regs, world)
    | none => .panic
  backEdge _ world := world
  runtimeError message := message

/-- `(loop [a 1 b 2 go 1] (if go (recur ..) b))`, lowered up to the `recur`. -/
def swapBefore : LowerCtx Load where
  finishedBlocks :=
    [⟨⟨0⟩, [], [(⟨0⟩, 1), (⟨1⟩, 2), (⟨2⟩, 1)], .jump ⟨1⟩⟩,
     ⟨⟨1⟩, [⟨⟨3⟩, [(⟨0⟩, ⟨0⟩)]⟩, ⟨⟨4⟩, [(⟨0⟩, ⟨1⟩)]⟩, ⟨⟨5⟩, [(⟨0⟩, ⟨2⟩)]⟩], [],
       .branch ⟨5⟩ ⟨2⟩ ⟨3⟩⟩]
  currentBlockId := ⟨2⟩
  currentPhis := []
  currentInsts := [(⟨6⟩, 0)]
  loopHeaders := [(⟨1⟩, [⟨3⟩, ⟨4⟩, ⟨5⟩])]
  nextVar := 7
  nextBlock := 5

/-- The header and the block of the `recur` after `(recur x y nil)`. -/
def swapLoop (x y : VarId) : List (Block Load) :=
  [⟨⟨0⟩, [], [(⟨0⟩, 1), (⟨1⟩, 2), (⟨2⟩, 1)], .jump ⟨1⟩⟩,
   ⟨⟨1⟩, [⟨⟨3⟩, [(⟨0⟩, ⟨0⟩), (⟨2⟩, x)]⟩, ⟨⟨4⟩, [(⟨0⟩, ⟨1⟩), (⟨2⟩, y)]⟩,
     ⟨⟨5⟩, [(⟨0⟩, ⟨2⟩), (⟨2⟩, ⟨6⟩)]⟩], [], .branch ⟨5⟩ ⟨2⟩ ⟨3⟩⟩,
   ⟨⟨2⟩, [], [(⟨6⟩, 0)], .recurJump ⟨1⟩ [x, y, ⟨6⟩]⟩]

/-- The context after `(recur x y nil)`. -/
def swapAfter (x y : VarId) : LowerCtx Load where
  finishedBlocks := swapLoop x y
  currentBlockId := ⟨5⟩
  currentPhis := []
  currentInsts := [(⟨7⟩, 0)]
  loopHeaders := [(⟨1⟩, [⟨3⟩, ⟨4⟩, ⟨5⟩])]
  nextVar := 8
  nextBlock := 6

/-- The whole function. -/
def swapFunction (x y : VarId) : IrFunction Load where
  params := []
  blocks := swapLoop x y ++
    [⟨⟨5⟩, [], [(⟨7⟩, 0)], .jump ⟨4⟩⟩, ⟨⟨3⟩, [], [], .jump ⟨4⟩⟩,
     ⟨⟨4⟩, [⟨⟨8⟩, [(⟨5⟩, ⟨7⟩), (⟨3⟩, ⟨4⟩)]⟩], [], .jump ⟨6⟩⟩,
     ⟨⟨6⟩, [⟨⟨9⟩, [(⟨4⟩, ⟨8⟩)]⟩], [], .ret ⟨9⟩⟩]
  nextVar := 10

/-- The registers at the first `recur`. -/
def swapRegisters : Registers Nat where
  values := [some 1, some 2, some 1, some 1, some 2, some 1, some 0, none, none, none]
  bounded := by decide

theorem swap_lowering : Lowering loadNil LowerCtx.new swapBefore := by
  have h0 : Lowering loadNil LowerCtx.new LowerCtx.new := .refl _
  have h1 := Lowering.emit (⟨0⟩, 1) (.freshVar h0 rfl)
  have h2 := Lowering.emit (⟨1⟩, 2) (.freshVar h1 rfl)
  have h3 := Lowering.emit (⟨2⟩, 1) (.freshVar h2 rfl)
  have h4 := Lowering.openLoop [⟨0⟩, ⟨1⟩, ⟨2⟩] h3 rfl (.refl _)
  have h5 := Lowering.freshBlock (.freshBlock (.freshBlock h4 rfl) rfl) rfl
  have h6 := Lowering.switchTo (.branch ⟨5⟩ ⟨2⟩ ⟨3⟩) ⟨2⟩ [] h5 ⟨by decide, by decide, by decide⟩
  exact Lowering.emit (⟨6⟩, 0) (.freshVar h6 rfl)

theorem swap_recur (x y : VarId) :
    swapBefore.lowerRecur loadNil [x, y, ⟨6⟩] = some (swapAfter x y) := rfl

theorem swapFunction_distinctPhis (x y : VarId) : (swapFunction x y).DistinctPhis := by
  simp [IrFunction.DistinctPhis, swapFunction, swapLoop]

/-- `(loop [a 1 b 2 go 1] (if go (recur b a nil) b))` is 1; the interpreter returns 2, since it
assigns `a` before it reads `a` for `b`. -/
theorem recur_swap_overwrites : Lowering loadNil LowerCtx.new swapBefore ∧
    swapBefore.lowerRecur loadNil [⟨4⟩, ⟨3⟩, ⟨6⟩] = some (swapAfter ⟨4⟩ ⟨3⟩) ∧
    (swapFunction ⟨4⟩ ⟨3⟩).DistinctPhis ∧
    [⟨4⟩, ⟨3⟩, ⟨6⟩].map swapRegisters.get = [some 2, some 1, some 0] ∧
    rebind 3 [2, 1, 0] = .ok [2, 1, 0] ∧
    (((swapAfter ⟨4⟩ ⟨3⟩).phisOf ⟨1⟩).bind (resolvePhis · ⟨2⟩ swapRegisters)).map
      (fun regs => [⟨3⟩, ⟨4⟩, ⟨5⟩].map regs.get) = some [some 2, some 2, some 0] ∧
    (start loadHost (swapFunction ⟨4⟩ ⟨3⟩) [] ()).map
      (run loadHost (swapFunction ⟨4⟩ ⟨3⟩) 10) = some (.done (.ok 2)) ∧
    (start loadHost (swapFunction ⟨4⟩ ⟨3⟩) [] ()).map
      (runWith loadHost (swapFunction ⟨4⟩ ⟨3⟩) parallelPhis 10) = some (.done (.ok 1)) :=
  ⟨swap_lowering, swap_recur _ _, swapFunction_distinctPhis _ _, rfl, rfl, rfl, rfl, rfl⟩

/-- The configurations of the first two rounds. -/
def swapRound0 : Config Nat Unit := ⟨0, ⟨4294967295⟩, Registers.new 10, ()⟩

def swapRound1 : Config Nat Unit where
  currentBlockIdx := 1
  prevBlockId := ⟨0⟩
  regs :=
    { values := [some 1, some 2, some 1, none, none, none, none, none, none, none]
      bounded := by decide }
  world := ()

/-- The same loop with `(recur a b nil)`, which keeps `a` and `b`: its first rounds and its back
edge are untangled. -/
theorem phis_are_parallel_recur_same : (∃ phis, (swapAfter ⟨3⟩ ⟨4⟩).phisOf ⟨1⟩ = some phis ∧
      ParallelEntry phis ⟨2⟩ swapRegisters (resolvePhis phis ⟨2⟩ swapRegisters) ∧
      SeesRebound [⟨3⟩, ⟨4⟩, ⟨5⟩] [⟨3⟩, ⟨4⟩, ⟨6⟩] swapRegisters
        (resolvePhis phis ⟨2⟩ swapRegisters)) ∧
    start loadHost (swapFunction ⟨3⟩ ⟨4⟩) [] () = some swapRound0 ∧
    run loadHost (swapFunction ⟨3⟩ ⟨4⟩) 2 swapRound0 =
      runWith loadHost (swapFunction ⟨3⟩ ⟨4⟩) parallelPhis 2 swapRound0 := by
  obtain ⟨hedge, hrun, hrecur⟩ := phis_are_parallel_iff_untangled (α := Nat) (ω := Unit)
    (ε := String) loadNil
  have hssa := swapFunction_distinctPhis ⟨3⟩ ⟨4⟩
  refine ⟨⟨_, rfl, ?_, ?_⟩, rfl, ?_⟩
  · exact (hedge _ hssa _ (.tail _ (.head _)) _ _).mpr (by decide)
  · exact (hrecur _ _ _ _ _ _ _ _ _ swap_lowering rfl (swap_recur ⟨3⟩ ⟨4⟩) (.refl _) rfl).mpr
      (by decide)
  · refine hrun loadHost _ hssa 2 swapRound0 ?_
    intro n hn config' hgoto
    match n, hn with
    | 0, _ =>
      obtain rfl : swapRound0 = config' := Next.goto.inj hgoto
      decide
    | 1, _ =>
      obtain rfl : swapRound1 = config' := Next.goto.inj hgoto
      decide

end Swap

end Clojurust.Ir
