import Mathlib.Data.List.Basic

/-!
# Poisoned regions

The regions of a thread (`crates/cljrs-gc/src/region.rs`), opened and closed by compiled code
(`crates/cljrs-compiler/src/rt_abi.rs`) and by frames of the interpreter
(`crates/cljrs-eval/src/ir_interp.rs`). A poisoned region is retired when it closes. Poisoning is recorded
by one number, the depth up to which the open regions are poisoned.

* `Thread`, `closeRegion`, `unwindRegionsTo`, `unwindAllNativeRegions` — the code;
* `closingOrder` — the order in which an exception closes regions;
* `Open`, `Open.step` — regions that each remember whether they were poisoned;
* `poison_retires_iff` — the two agree exactly if exceptions and exhausted gas keep to the order of the
  stack.

What is allocated in a region is in `Clojurust.Region.Bump`; the scope of a top-level form is a region
of the interpreter here.
-/

namespace Clojurust.Gc

open List

/-- Retired memory is kept, memory that is reset is freed. -/
inductive Fate where
  | retired
  | reset
  deriving DecidableEq

structure Region where
  name : Nat
  /-- the frame of the interpreter that owns it; none for compiled code -/
  frame : Option Nat
  deriving DecidableEq

/-- A region of compiled code. -/
def Region.native (r : Region) : Bool := r.frame.isNone

structure Thread where
  /-- `REGION_STACK`, the innermost region first. -/
  stack : List Region
  /-- `RT_REGION_STACK`. -/
  native : List Region
  /-- `POISON_WATERMARK`. -/
  watermark : Nat

inductive Op where
  | start (region : Region)
  | poison
  /-- The owner of the innermost region closes it. -/
  | close
  /-- An exception reaches an `rt_try` that was entered at a depth. -/
  | unwind (depth : Nat)
  /-- A checkpoint of compiled code fails, `rt_gas_charge`. -/
  | exhaust

/-- A `RegionFrame` drops its entries in the order they were opened. -/
def dropEntry (r : Region) : List Region → List Region
  | [] => [r]
  | first :: rest => if first.frame = r.frame then first :: dropEntry r rest else r :: first :: rest

/-- The regions of the interpreter as an exception drops its frames, the innermost frame first. -/
def dropOrder : List Region → List Region
  | [] => []
  | r :: rest => if r.native then dropOrder rest else dropEntry r (dropOrder rest)

/-- Frames of compiled code return and leave their regions to `rt_try`. -/
def closingOrder (regions : List Region) : List Region := dropOrder regions ++ regions.filter Region.native

namespace Thread

variable (t : Thread)

/-- `poison_active_regions`. -/
def poisonActiveRegions : Thread :=
  if t.stack.length = 0 then t else { t with watermark := max t.watermark t.stack.length }

/-- `close_region`. -/
def closeRegion (region : Region) : Thread × List (Region × Fate) :=
  if t.stack.length ≠ 0 ∧ t.stack.length ≤ t.watermark then
    ({ t with stack := t.stack.tail, watermark := t.stack.length - 1 }, [(region, .retired)])
  else ({ t with stack := t.stack.tail }, [(region, .reset)])

def closeAll : List Region → Thread → Thread × List (Region × Fate)
  | [], t => (t, [])
  | region :: regions, t =>
    let rest := closeAll regions (t.closeRegion region).1
    (rest.1, (t.closeRegion region).2 ++ rest.2)

/-- `rt_region_end`. -/
def rtRegionEnd : Thread × List (Region × Fate) :=
  match t.native with
  | [] => (t, [])
  | region :: native => { t with native := native }.closeRegion region

/-- `unwind_region_stack_to`. -/
def unwindRegionStackTo (depth : Nat) : Thread :=
  { t with stack := t.stack.drop (t.stack.length - depth) }

/-- `unwind_regions_to`, with the two depths that `rt_try` saved: regions of compiled code are popped and
closed. -/
def unwindRegionsTo (gcDepth rtDepth : Nat) : Thread × List (Region × Fate) :=
  let opened := t.native.length - rtDepth
  let closed := { t with native := t.native.drop opened }.closeAll (t.native.take opened)
  (closed.1.unwindRegionStackTo gcDepth, closed.2)

/-- `unwind_all_native_regions`. -/
def unwindAllNativeRegions : Thread × List (Region × Fate) :=
  { t with native := [] }.closeAll t.native

/-- The regions that an operation closes, and what becomes of them. -/
def step : Op → Thread × List (Region × Fate)
  | .start region =>
    (⟨region :: t.stack, if region.native then region :: t.native else t.native, t.watermark⟩, [])
  | .poison => (t.poisonActiveRegions, [])
  | .close =>
    match t.stack with
    | [] => (t, [])
    | region :: _ => if region.native then t.rtRegionEnd else t.closeRegion region
  | .unwind depth =>
    -- the frames of the interpreter are gone when the exception reaches `rt_try`
    let dropped := t.closeAll (dropOrder (t.stack.take (t.stack.length - depth)))
    let caught := dropped.1.unwindRegionsTo depth
      ((t.stack.drop (t.stack.length - depth)).filter Region.native).length
    (caught.1, dropped.2 ++ caught.2)
  | .exhaust => t.unwindAllNativeRegions

/-- What each operation closes, and the regions on the stack after it. -/
def trace (t : Thread) : List Op → List (List (Region × Fate) × List Region)
  | [] => []
  | op :: ops => ((t.step op).2, (t.step op).1.stack) :: (t.step op).1.trace ops

end Thread

/-- An open region; was there a poison call since it was opened? -/
structure Open where
  region : Region
  poisoned : Bool

namespace Open

def fate (o : Open) : Region × Fate := (o.region, if o.poisoned then .retired else .reset)

/-- Unwinding closes the regions above the depth, and exhausted gas those of compiled code, the innermost
first. -/
def step (s : List Open) : Op → List Open × List (Region × Fate)
  | .start region => (⟨region, false⟩ :: s, [])
  | .poison => (s.map fun o => { o with poisoned := true }, [])
  | .close => (s.tail, (s.take 1).map fate)
  | .unwind depth => (s.drop (s.length - depth), (s.take (s.length - depth)).map fate)
  | .exhaust => (s.filter fun o => !o.region.native, (s.filter fun o => o.region.native).map fate)

def trace (s : List Open) : List Op → List (List (Region × Fate) × List Region)
  | [] => []
  | op :: ops => ((step s op).2, (step s op).1.map region) :: trace (step s op).1 ops

/-- The order in which the exception closes the regions is that of the stack; where gas is exhausted, the
regions of compiled code are the innermost ones. -/
def Keeps (s : List Open) : Op → Prop
  | .unwind depth =>
    closingOrder ((s.take (s.length - depth)).map region) = (s.take (s.length - depth)).map region
  | .exhaust => (s.filter fun o => o.region.native) ++ (s.filter fun o => !o.region.native) = s
  | _ => True

def Orderly (s : List Open) : List Op → Prop
  | [] => True
  | op :: ops => Keeps s op ∧ Orderly (step s op).1 ops

end Open

/-- The watermark tells the poisoned regions. -/
structure Marks (t : Thread) (s : List Open) : Prop where
  stack : t.stack = s.map Open.region
  flags : s.map Open.poisoned = replicate (s.length - t.watermark) false ++ replicate t.watermark true
  le : t.watermark ≤ s.length

/-- The thread has these regions open. -/
structure Shows (t : Thread) (s : List Open) : Prop extends Marks t s where
  native : t.native = (s.map Open.region).filter Region.native

variable {t : Thread} {s : List Open} {o : Open}

theorem closeRegion_marks (h : Marks t (o :: s)) :
    Marks (t.closeRegion o.region).1 s ∧ (t.closeRegion o.region).2 = [o.fate] := by
  obtain ⟨hstack, hflags, hle⟩ := h
  have hlength : t.stack.length = s.length + 1 := by rw [hstack, length_map, length_cons]
  have htail : t.stack.tail = s.map Open.region := by rw [hstack, map_cons, tail_cons]
  simp only [map_cons, length_cons] at hflags hle
  by_cases hw : t.watermark = s.length + 1
  · rw [hw, Nat.sub_self, replicate_zero, nil_append, replicate_succ, cons.injEq] at hflags
    rw [Thread.closeRegion, if_pos (by omega), hlength]
    refine ⟨⟨htail, ?_, Nat.le_refl _⟩, by rw [Open.fate, hflags.1, if_pos rfl]⟩
    simp only [Nat.add_sub_cancel, Nat.sub_self, replicate_zero, nil_append]
    exact hflags.2
  · have hlt : t.watermark ≤ s.length := by omega
    rw [Nat.succ_sub hlt, replicate_succ, cons_append, cons.injEq] at hflags
    rw [Thread.closeRegion, if_neg (by omega)]
    exact ⟨⟨htail, hflags.2, hlt⟩, by rw [Open.fate, hflags.1, if_neg Bool.false_ne_true]⟩

theorem closeAll_marks : ∀ {top : List Open} {t : Thread}, Marks t (top ++ s) →
    Marks (t.closeAll (top.map Open.region)).1 s ∧
      (t.closeAll (top.map Open.region)).2 = top.map Open.fate
  | [], _, h => ⟨h, rfl⟩
  | o :: top, t, h => by
    obtain ⟨hclosed, hfate⟩ := closeRegion_marks h
    obtain ⟨hrest, hfates⟩ := closeAll_marks hclosed
    refine ⟨hrest, ?_⟩
    rw [map_cons, Thread.closeAll, hfate, hfates, map_cons, singleton_append]

theorem closeAll_regions : ∀ (regions : List Region) (t : Thread),
    (t.closeAll regions).1.native = t.native ∧ (t.closeAll regions).2.map Prod.fst = regions
  | [], _ => ⟨rfl, rfl⟩
  | r :: regions, t => by
    have hfirst : (t.closeRegion r).1.native = t.native ∧ (t.closeRegion r).2.map Prod.fst = [r] := by
      unfold Thread.closeRegion
      split <;> exact ⟨rfl, rfl⟩
    obtain ⟨hnative, hrest⟩ := closeAll_regions regions (t.closeRegion r).1
    rw [Thread.closeAll, map_append, hfirst.2, hrest]
    exact ⟨hnative.trans hfirst.1, rfl⟩

section Unwind

variable {depth : Nat} {top : List Open}

/-- What an exception closes: the regions of the interpreter, then those of compiled code. -/
theorem unwind_eq (h : Shows t (top ++ s)) (hdepth : (top ++ s).length - depth = top.length) :
    let dropped := t.closeAll (dropOrder (top.map Open.region))
    let closed := (⟨dropped.1.stack, (s.map Open.region).filter Region.native, dropped.1.watermark⟩ :
      Thread).closeAll ((top.map Open.region).filter Region.native)
    t.step (.unwind depth) = (closed.1.unwindRegionStackTo depth, dropped.2 ++ closed.2) := by
  have hstack : t.stack = top.map Open.region ++ s.map Open.region := by rw [h.stack, map_append]
  have hnative := h.native
  rw [map_append, filter_append] at hnative
  have hlength : t.stack.length - depth = (top.map Open.region).length := by
    rw [h.stack, length_map, hdepth, length_map]
  simp only [Thread.step, Thread.unwindRegionsTo, (closeAll_regions _ _).1, hlength]
  simp only [hstack, hnative, take_left, drop_left, length_append, Nat.add_sub_cancel]

theorem unwind_shows (h : Shows t (top ++ s)) (hdepth : (top ++ s).length - depth = top.length)
    (horder : closingOrder (top.map Open.region) = top.map Open.region) :
    Shows (t.step (.unwind depth)).1 s ∧ (t.step (.unwind depth)).2 = top.map Open.fate := by
  rw [unwind_eq h hdepth]
  obtain ⟨inner, outer, rfl, hinner, houter⟩ := append_eq_map_iff.mp horder
  rw [← hinner, ← houter]
  obtain ⟨hmarks, hfates⟩ := closeAll_marks (append_assoc inner outer s ▸ h.toMarks)
  obtain ⟨hmarks', hfates'⟩ := closeAll_marks (t := ⟨_, (s.map Open.region).filter Region.native, _⟩)
    ⟨hmarks.stack, hmarks.flags, hmarks.le⟩
  refine ⟨⟨⟨?_, hmarks'.flags, hmarks'.le⟩, (closeAll_regions _ _).1⟩, ?_⟩
  · rw [Thread.unwindRegionStackTo, hmarks'.stack, length_map, show s.length - depth = 0 by
      simp only [length_append] at hdepth; omega, drop_zero]
  · rw [hfates, hfates', map_append]

end Unwind

/-- The regions of compiled code on the native stack. -/
theorem Shows.native_eq (h : Shows t s) :
    t.native = (s.filter fun o => o.region.native).map Open.region := by
  rw [h.native, filter_map]
  rfl

theorem exhaust_shows (h : Shows t s) (horder : Open.Keeps s .exhaust) :
    Shows (t.step .exhaust).1 (s.filter fun o => !o.region.native) ∧
      (t.step .exhaust).2 = (s.filter fun o => o.region.native).map Open.fate := by
  have hnone : ((s.filter fun o => !o.region.native).map Open.region).filter Region.native = [] := by
    refine filter_eq_nil_iff.mpr fun r hr => ?_
    obtain ⟨o, ho, rfl⟩ := mem_map.mp hr
    simpa using (mem_filter.mp ho).2
  have hmarks : Marks { t with native := [] } ((s.filter fun o => o.region.native) ++
      s.filter fun o => !o.region.native) := horder.symm ▸ ⟨h.stack, h.flags, h.le⟩
  obtain ⟨hclosed, hfates⟩ := closeAll_marks hmarks
  rw [Thread.step, Thread.unwindAllNativeRegions, h.native_eq]
  exact ⟨⟨hclosed, (closeAll_regions _ _).1.trans hnone.symm⟩, hfates⟩

theorem closeAll_stack : ∀ (regions : List Region) (t : Thread),
    (t.closeAll regions).1.stack = t.stack.drop regions.length
  | [], _ => rfl
  | r :: regions, t => by
    have hfirst : (t.closeRegion r).1.stack = t.stack.tail := by
      unfold Thread.closeRegion
      split <;> rfl
    rw [Thread.closeAll, closeAll_stack regions, hfirst, drop_tail, length_cons]

/-- If nothing below has the property, what has it is above the rest. -/
theorem filter_append_of_drop {α : Type} {p : α → Bool} {l : List α}
    (h : ∀ x ∈ l.drop (l.filter p).length, p x = false) :
    l.filter p ++ (l.filter fun x => !p x) = l := by
  obtain ⟨n, hn⟩ : ∃ n, n = (l.filter p).length := ⟨_, rfl⟩
  rw [← hn] at h
  have hlower : (l.drop n).filter p = [] := by simpa [filter_eq_nil_iff] using h
  have hsplit : (l.take n).filter p = l.filter p := by
    have hfilter := congrArg (filter p) (take_append_drop n l)
    rwa [filter_append, hlower, append_nil] at hfilter
  have hupper : ∀ x ∈ l.take n, p x = true := by
    refine length_filter_eq_length_iff.mp (Nat.le_antisymm (length_filter_le _ _) ?_)
    rw [hsplit, ← hn]
    exact length_take_le n l
  have htake : l.filter p = l.take n := hsplit.symm.trans (filter_eq_self.mpr hupper)
  have hdrop : (l.filter fun x => !p x) = l.drop n := by
    have hfilter := congrArg (filter fun x => !p x) (take_append_drop n l)
    rw [filter_append, filter_eq_nil_iff.mpr (by simpa using hupper), nil_append,
      filter_eq_self.mpr (by simpa using h)] at hfilter
    exact hfilter.symm
  rw [htake, hdrop, take_append_drop]

theorem step_shows (h : Shows t s) {op : Op} (horder : Open.Keeps s op) :
    Shows (t.step op).1 (Open.step s op).1 ∧ (t.step op).2 = (Open.step s op).2 := by
  cases op with
  | start =>
    refine ⟨⟨⟨congrArg _ h.stack, ?_, Nat.le_succ_of_le h.le⟩, ?_⟩, rfl⟩
    · show false :: _ = replicate (s.length + 1 - t.watermark) false ++ _
      rw [Nat.succ_sub h.le, replicate_succ, cons_append, h.flags]
      rfl
    · simp only [Thread.step, Open.step, map_cons, filter_cons, h.native]
  | poison =>
    have hmax : t.poisonActiveRegions = { t with watermark := s.length } := by
      have hlength : t.stack.length = s.length := by rw [h.stack, length_map]
      rw [Thread.poisonActiveRegions, hlength, Nat.max_eq_right h.le]
      split
      · rename_i hzero
        rw [hzero, ← Nat.le_zero.mp (hzero ▸ h.le)]
      · rfl
    have hregions : (s.map fun o => { o with poisoned := true }).map Open.region = s.map Open.region :=
      map_map
    simp only [Thread.step, Open.step, hmax, and_true]
    refine ⟨⟨h.stack.trans hregions.symm, ?_, ?_⟩, hregions ▸ h.native⟩
    · simp [Function.comp_def]
    · simp
  | close =>
    cases s with
    | nil =>
      simp only [Thread.step, h.stack, map_nil]
      exact ⟨h, rfl⟩
    | cons o s =>
      have hnative := h.native
      rw [map_cons, filter_cons] at hnative
      simp only [Thread.step, h.stack, map_cons]
      split
      · rename_i hcompiled
        rw [if_pos hcompiled] at hnative
        rw [Thread.rtRegionEnd, hnative]
        obtain ⟨hmarks, hfate⟩ := closeRegion_marks (t := ⟨_, (s.map Open.region).filter Region.native, _⟩)
          ⟨h.stack, h.flags, h.le⟩
        exact ⟨⟨hmarks, (closeAll_regions [o.region] _).1⟩, hfate⟩
      · rename_i hinterpreted
        rw [if_neg hinterpreted] at hnative
        obtain ⟨hmarks, hfate⟩ := closeRegion_marks h.toMarks
        exact ⟨⟨hmarks, (closeAll_regions [o.region] t).1.trans hnative⟩, hfate⟩
  | unwind depth =>
    refine unwind_shows ((take_append_drop (s.length - depth) s).symm ▸ h) ?_ horder
    show (take _ s ++ drop _ s).length - depth = _
    rw [take_append_drop, length_take]
    omega
  | exhaust => exact exhaust_shows h horder

/-- Regions that are closed in another order are told apart by their names, or leave other regions on the
stack. -/
theorem keeps_of_step (h : Shows t s) {op : Op} (heq : (t.step op).2 = (Open.step s op).2)
    (hstack : (t.step op).1.stack = (Open.step s op).1.map Open.region) : Open.Keeps s op := by
  cases op with
  | unwind depth =>
    have hregions : (t.step (.unwind depth)).2.map Prod.fst =
        closingOrder ((s.take (s.length - depth)).map Open.region) := by
      rw [unwind_eq ((take_append_drop (s.length - depth) s).symm ▸ h) ?_, map_append,
        (closeAll_regions _ _).2, (closeAll_regions _ _).2, closingOrder]
      rw [take_append_drop, length_take]
      omega
    rw [heq, Open.step, map_map] at hregions
    exact hregions.symm
  | exhaust =>
    rw [Thread.step, Thread.unwindAllNativeRegions, closeAll_stack, h.native_eq, length_map] at hstack
    change t.stack.drop _ = (s.filter fun o => !o.region.native).map Open.region at hstack
    rw [h.stack, ← map_drop] at hstack
    refine filter_append_of_drop fun o ho => ?_
    have hmem : o.region ∈ (s.filter fun o => !o.region.native).map Open.region := hstack ▸ mem_map_of_mem ho
    obtain ⟨o', ho', heq⟩ := mem_map.mp hmem
    simpa [heq] using (mem_filter.mp ho').2
  | _ => trivial

theorem trace_iff : ∀ {ops : List Op} {t : Thread} {s : List Open}, Shows t s →
    (t.trace ops = Open.trace s ops ↔ Open.Orderly s ops)
  | [], _, _, _ => iff_of_true rfl trivial
  | op :: ops, t, s, h => by
    rw [Thread.trace, Open.trace, Open.Orderly, cons.injEq, Prod.mk.injEq]
    constructor
    · rintro ⟨⟨hfate, hstack⟩, htrace⟩
      have hkeeps := keeps_of_step h hfate hstack
      exact ⟨hkeeps, (trace_iff (step_shows h hkeeps).1).mp htrace⟩
    · rintro ⟨hkeeps, hrest⟩
      obtain ⟨hshows, hfate⟩ := step_shows h hkeeps
      exact ⟨⟨hfate, hshows.stack⟩, (trace_iff hshows).mpr hrest⟩

end Clojurust.Gc
