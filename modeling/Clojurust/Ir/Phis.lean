import Clojurust.Ir.Interp
import Clojurust.Lib.Assignment

/-!
# Phis as a parallel assignment

The phis of a block are meant as one assignment from the registers as the predecessor left them;
the interpreter performs it one phi after the other.

* `moves` — the assignment of an edge, `ParallelEntry` — what it should do;
* `Untangled` — the condition on the registers under which it does, `resolvePhis_parallel_iff`;
* `parallelPhis` — the intended meaning as a function; `run_eq_parallel` — a run all of whose
  edges are untangled is a run under the intended meaning.
-/

namespace Clojurust.Ir

open Assignment List

/-! ## Register files -/

namespace Registers

variable {α : Type} {regs regs' : Registers α} {v w : VarId} {x : α}

theorem set_eq_some_iff : regs.set v x = some regs' ↔
    regs.Has v ∧ regs'.values = regs.values.set v.id.toNat (some x) := by
  unfold set
  split
  · rename_i h
    simp only [Option.some.injEq, h, true_and]
    constructor
    · rintro rfl
      rfl
    · intro hvalues
      exact Registers.ext hvalues.symm
  · grind

theorem exists_set (h : regs.Has v) (x : α) : ∃ regs', regs.set v x = some regs' := by
  unfold set
  rw [if_pos h]
  exact ⟨_, rfl⟩

theorem get_of_set (h : regs.set v x = some regs') :
    regs'.get = Function.update regs.get v (some x) := by
  obtain ⟨hv, hvalues⟩ := set_eq_some_iff.mp h
  funext w
  unfold get
  rw [hvalues]
  by_cases hw : w = v
  · subst hw
    have : w.id.toNat < regs.values.length := hv
    simp [getElem?_set_self this]
  · have hne : v.id.toNat ≠ w.id.toNat := by
      intro h
      apply hw
      cases w
      cases v
      simp only [VarId.mk.injEq]
      exact (UInt32.toNat_inj.mp h).symm
    grind

theorem length_of_set (h : regs.set v x = some regs') :
    regs'.values.length = regs.values.length := by
  rw [(set_eq_some_iff.mp h).2, length_set]

theorem has_of_set (h : regs.set v x = some regs') : regs'.Has w ↔ regs.Has w := by
  unfold Has
  rw [length_of_set h]

theorem ext_get (hlen : regs.values.length = regs'.values.length)
    (hget : ∀ v, regs.get v = regs'.get v) : regs = regs' := by
  refine Registers.ext (ext_getElem hlen ?_)
  intro i hi hi'
  have hbound : regs.values.length < UInt32.size := regs.bounded
  have h := hget ⟨UInt32.ofNat i⟩
  unfold get at h
  rw [UInt32.toNat_ofNat_of_lt' (by omega), getElem?_eq_getElem hi, getElem?_eq_getElem hi'] at h
  simpa using h

end Registers

/-! ## One edge -/

/-- The moves that entering the block from `prev` makes. -/
def moves (phis : List Phi) (prev : BlockId) : List (VarId × VarId) :=
  phis.filterMap (fun phi => (phi.source prev).map (fun src => (phi.dst, src)))

section Edge

variable {α : Type} {phis : List Phi} {prev : BlockId} {regs regs' : Registers α}

/-- The block was entered with its phis assigned in parallel: every phi holds what its source
held when the predecessor was left, and no other register has changed. -/
def ParallelEntry (phis : List Phi) (prev : BlockId) (regs : Registers α)
    (entered : Option (Registers α)) : Prop :=
  ∃ regs', entered = some regs' ∧
    (∀ phi ∈ phis, ∀ src, phi.source prev = some src →
      ∃ value, regs.get src = some value ∧ regs'.get phi.dst = some value) ∧
    (∀ v, v ∉ (moves phis prev).map Prod.fst → regs'.get v = regs.get v)

/-- Every phi has its registers, and one that reads the destination of an earlier phi finds there
the value that the register had before. -/
def Untangled (phis : List Phi) (prev : BlockId) (regs : Registers α) : Prop :=
  (∀ m ∈ moves phis prev, regs.Has m.1 ∧ regs.get m.2 ≠ none) ∧
    (moves phis prev).Pairwise (Undisturbed regs.get)

instance [DecidableEq α] (phis : List Phi) (prev : BlockId) (regs : Registers α) :
    Decidable (Untangled phis prev regs) :=
  inferInstanceAs (Decidable (_ ∧ _))

theorem moves_cons_none {phi : Phi} (h : phi.source prev = none) :
    moves (phi :: phis) prev = moves phis prev := by simp [moves, h]

theorem moves_cons_some {phi : Phi} {src : VarId} (h : phi.source prev = some src) :
    moves (phi :: phis) prev = (phi.dst, src) :: moves phis prev := by simp [moves, h]

theorem mem_moves_iff {m : VarId × VarId} :
    m ∈ moves phis prev ↔ ∃ phi ∈ phis, phi.source prev = some m.2 ∧ phi.dst = m.1 := by
  obtain ⟨d, s⟩ := m
  simp only [moves, mem_filterMap, Option.map_eq_some_iff, Prod.mk.injEq]
  simp

theorem moves_nodup (prev : BlockId) (h : (phis.map Phi.dst).Nodup) :
    ((moves phis prev).map Prod.fst).Nodup := by
  refine h.sublist ?_
  clear h
  induction phis with
  | nil => exact Sublist.slnil
  | cons phi phis ih =>
    cases hsrc : phi.source prev with
    | none =>
      rw [moves_cons_none hsrc]
      exact ih.cons phi.dst
    | some =>
      rw [moves_cons_some hsrc]
      exact ih.cons_cons phi.dst

theorem get_resolvePhis : ∀ {phis : List Phi} {regs regs' : Registers α},
    resolvePhis phis prev regs = some regs' →
      regs'.get = seq (moves phis prev) regs.get ∧ regs'.values.length = regs.values.length ∧
      ∀ m ∈ moves phis prev, regs.Has m.1
  | [], regs, regs', h => by
    cases h
    exact ⟨rfl, rfl, by simp [moves]⟩
  | phi :: phis, regs, regs', h => by
    unfold resolvePhis at h
    cases hsrc : phi.source prev with
    | none =>
      simp only [hsrc] at h
      rw [moves_cons_none hsrc]
      exact get_resolvePhis h
    | some src =>
      cases hget : regs.get src with
      | none => simp [hsrc, hget] at h
      | some value =>
        cases hset : regs.set phi.dst value with
        | none => simp [hsrc, hget, hset] at h
        | some =>
          simp only [hsrc, hget, hset] at h
          obtain ⟨hseq, hlen, hhas⟩ := get_resolvePhis h
          rw [moves_cons_some hsrc, seq, hget, ← Registers.get_of_set hset]
          refine ⟨hseq, hlen.trans (Registers.length_of_set hset), ?_⟩
          simp only [forall_mem_cons]
          refine ⟨(Registers.set_eq_some_iff.mp hset).1, ?_⟩
          intro m hm
          exact (Registers.has_of_set hset).mp (hhas m hm)

theorem exists_resolvePhis : ∀ {phis : List Phi} {regs : Registers α},
    (∀ m ∈ moves phis prev, regs.Has m.1 ∧ regs.get m.2 ≠ none) →
      ∃ regs', resolvePhis phis prev regs = some regs'
  | [], regs, _ => ⟨regs, rfl⟩
  | phi :: phis, regs, h => by
    unfold resolvePhis
    cases hsrc : phi.source prev with
    | none =>
      rw [moves_cons_none hsrc] at h
      exact exists_resolvePhis h
    | some =>
      rw [moves_cons_some hsrc] at h
      simp only [forall_mem_cons] at h
      obtain ⟨⟨hhas, hinit⟩, hrest⟩ := h
      obtain ⟨value, hget⟩ := Option.ne_none_iff_exists'.mp hinit
      obtain ⟨regs1, hset⟩ := Registers.exists_set hhas value
      simp only [hget, hset]
      refine exists_resolvePhis ?_
      intro m hm
      refine ⟨(Registers.has_of_set hset).mpr (hrest m hm).1, ?_⟩
      rw [Registers.get_of_set hset]
      grind

/-- **The phis of an edge are assigned in parallel exactly when they are untangled**, for a block
whose phis have distinct destinations. -/
theorem resolvePhis_parallel_iff (hssa : (phis.map Phi.dst).Nodup) :
    ParallelEntry phis prev regs (resolvePhis phis prev regs) ↔ Untangled phis prev regs := by
  have hnodup := moves_nodup prev hssa
  constructor
  · rintro ⟨regs', hres, hphis, -⟩
    obtain ⟨hseq, -, hhas⟩ := get_resolvePhis hres
    have hmove : ∀ m ∈ moves phis prev, ∃ value, regs.get m.2 = some value ∧
        regs'.get m.1 = some value := by
      intro m hm
      obtain ⟨phi, hphi, hsrc, hdst⟩ := mem_moves_iff.mp hm
      rw [← hdst]
      exact hphis phi hphi m.2 hsrc
    refine ⟨?_, (seq_eq_par_iff hnodup).mp ?_⟩
    · grind
    · intro m hm
      obtain ⟨value, hvalue, hvalue'⟩ := hmove m hm
      rw [← hseq, hvalue, hvalue']
  · rintro ⟨hregs, hpair⟩
    obtain ⟨regs', hres⟩ := exists_resolvePhis hregs
    obtain ⟨hseq, -, -⟩ := get_resolvePhis hres
    refine ⟨regs', hres, ?_, ?_⟩
    · intro phi hphi src hsrc
      have hm : (phi.dst, src) ∈ moves phis prev := mem_moves_iff.mpr ⟨phi, hphi, hsrc, rfl⟩
      obtain ⟨value, hvalue⟩ := Option.ne_none_iff_exists'.mp (hregs _ hm).2
      refine ⟨value, hvalue, ?_⟩
      rw [hseq, ← hvalue]
      exact (seq_eq_par_iff hnodup).mpr hpair _ hm
    · intro v hv
      rw [hseq]
      exact seq_of_notMem hv

end Edge

/-! ## Whole runs -/

section Runs

variable {ι α ω ε : Type}

/-- Assign all moves at once. -/
def Registers.assign (regs : Registers α) (ms : List (VarId × VarId)) : Registers α where
  values := regs.values.mapIdx (fun i old =>
    match ms.lookup ⟨UInt32.ofNat i⟩ with
    | some src => regs.get src
    | none => old)
  bounded := by
    rw [length_mapIdx]
    exact regs.bounded

/-- The intended meaning of the phis of an edge. -/
def parallelPhis (phis : List Phi) (prev : BlockId) (regs : Registers α) : Option (Registers α) :=
  if (moves phis prev).all (fun m => decide (regs.Has m.1) && (regs.get m.2).isSome) then
    some (regs.assign (moves phis prev))
  else none

variable {regs : Registers α} {f : IrFunction ι}

theorem Registers.get_assign {ms : List (VarId × VarId)}
    (h : ∀ m ∈ ms, regs.Has m.1) : (regs.assign ms).get = par ms regs.get := by
  funext v
  have hid : (⟨UInt32.ofNat v.id.toNat⟩ : VarId) = v := by simp
  by_cases hv : regs.Has v
  · have hlt : v.id.toNat < regs.values.length := hv
    unfold Registers.get Registers.assign par
    simp only [getElem?_mapIdx, getElem?_eq_getElem hlt, Option.map_some, hid]
    cases ms.lookup v <;> rfl
  · have hnot : v ∉ ms.map Prod.fst := by
      intro hmem
      obtain ⟨m, hm, rfl⟩ := mem_map.mp hmem
      exact hv (h m hm)
    have hge : regs.values.length ≤ v.id.toNat := Nat.le_of_not_lt hv
    rw [par_of_notMem hnot]
    unfold Registers.get Registers.assign
    simp [getElem?_eq_none hge]

theorem resolvePhis_eq_parallel {phis : List Phi} {prev : BlockId}
    (hssa : (phis.map Phi.dst).Nodup) (h : Untangled phis prev regs) :
    resolvePhis phis prev regs = parallelPhis phis prev regs := by
  obtain ⟨hregs, hpair⟩ := h
  obtain ⟨regs', hres⟩ := exists_resolvePhis hregs
  obtain ⟨hseq, hlen, hhas⟩ := get_resolvePhis hres
  have hnodup := moves_nodup prev hssa
  have hall : (moves phis prev).all (fun m => decide (regs.Has m.1) && (regs.get m.2).isSome) := by
    rw [all_eq_true]
    intro m hm
    simp [(hregs m hm).1, Option.isSome_iff_ne_none.mpr (hregs m hm).2]
  unfold parallelPhis
  rw [if_pos hall, hres]
  refine congrArg some (Registers.ext_get ?_ ?_)
  · rw [hlen]
    simp [Registers.assign]
  · intro v
    rw [hseq, Registers.get_assign hhas]
    by_cases hv : v ∈ (moves phis prev).map Prod.fst
    · obtain ⟨⟨d, src⟩, hm, rfl⟩ := mem_map.mp hv
      rw [par_of_mem hnodup hm]
      exact (seq_eq_par_iff hnodup).mpr hpair _ hm
    · rw [seq_of_notMem hv, par_of_notMem hv]

/-- Every block defines its phis once. -/
def IrFunction.DistinctPhis (f : IrFunction ι) : Prop :=
  ∀ block ∈ f.blocks, (block.phis.map Phi.dst).Nodup

/-- The edge by which the block is entered is untangled. -/
def Config.Untangled (f : IrFunction ι) (config : Config α ω) : Prop :=
  ∀ block, f.blocks[config.currentBlockIdx]? = some block →
    Ir.Untangled block.phis config.prevBlockId config.regs

instance [DecidableEq α] (f : IrFunction ι) (config : Config α ω) :
    Decidable (config.Untangled f) :=
  inferInstanceAs (Decidable (∀ block ∈ f.blocks[config.currentBlockIdx]?, _))

theorem step_eq_parallel (host : Host ι α ω ε) (hssa : f.DistinctPhis)
    {config : Config α ω} (h : config.Untangled f) :
    stepWith host f resolvePhis config = stepWith host f parallelPhis config := by
  unfold stepWith
  cases hblock : f.blocks[config.currentBlockIdx]? with
  | none => rfl
  | some block =>
    simp only [resolvePhis_eq_parallel (hssa block (mem_of_getElem? hblock)) (h block hblock)]

/-- **A run all of whose edges are untangled** is a run in which all phis are assigned in
parallel. -/
theorem run_eq_parallel (host : Host ι α ω ε) (hssa : f.DistinctPhis) :
    ∀ (fuel : Nat) (config : Config α ω),
      (∀ n < fuel, ∀ config', run host f n config = .goto config' → config'.Untangled f) →
      run host f fuel config = runWith host f parallelPhis fuel config
  | 0, _, _ => rfl
  | fuel + 1, config, h => by
    have hfirst := step_eq_parallel host hssa (h 0 (Nat.succ_pos _) config rfl)
    unfold run at *
    simp only [runWith, ← hfirst]
    cases hstep : stepWith host f resolvePhis config with
    | goto config' =>
      refine run_eq_parallel host hssa fuel config' ?_
      intro n hn config'' hrun
      refine h (n + 1) (Nat.succ_lt_succ hn) config'' ?_
      simp only [runWith, hstep]
      exact hrun
    | done | panic => rfl

end Runs

end Clojurust.Ir
