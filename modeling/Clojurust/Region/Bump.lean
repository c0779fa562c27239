import Mathlib.Algebra.GroupWithZero.Nat
import Mathlib.Data.List.Basic

/-!
# Bump allocation

`Region` of `crates/cljrs-gc/src/region.rs`: objects are allocated one after the other in a chunk of
memory, and a region with a byte limit has one chunk only. Addresses are far below `2 ^ 64`, so that their
sums do not overflow.

* `charge`, `bumpAlloc`, `alloc`, `reset` — the code; where the system puts a new chunk is an argument;
* `Bounded` — what holds of a region with a limit, kept by every call (`Bounded.apply`);
* `bump_allocation_iff` — the blocks are apart, and when a failed allocation leaves no trace.
-/

namespace Clojurust.Gc.Bump

open List

/-- The size of a type, and its alignment as a power of two. -/
structure Layout where
  size : Nat
  alignBits : Nat

def Layout.align (layout : Layout) : Nat := 2 ^ layout.alignBits

structure Chunk where
  base : Nat
  size : Nat

/-- An object in the region; of its type only the layout matters. -/
structure DropEntry where
  ptr : Nat
  layout : Layout

structure Region where
  chunks : List Chunk
  ptr : Nat
  stop : Nat
  drops : List DropEntry
  bytesUsed : Nat
  accountedBytes : Nat
  byteLimit : Option Nat
  objectCount : Nat

structure RegionLimitExceeded where
  limit : Nat
  used : Nat
  requested : Nat

def saturatingAdd (a b : Nat) : Nat := min (a + b) (2 ^ 64 - 1)

/-- `(ptr + align - 1) & !(align - 1)`, the next multiple of a power of two. -/
def alignUp (ptr align : Nat) : Nat := (ptr + align - 1) / align * align

/-- `with_limit`, with a chunk at `base`, of at most `isize::MAX` bytes with their padding. -/
def withLimit (base limit : Nat) : Option Region :=
  if 64 ≤ limit ∧ limit + 16 ≤ 2 ^ 63 then
    some ⟨[⟨base, limit⟩], base, base + limit, [], 0, 0, some limit, 0⟩
  else none

namespace Region

variable (r : Region)

def charge (requested : Nat) : Except RegionLimitExceeded Region :=
  let accounted := saturatingAdd r.accountedBytes requested
  match r.byteLimit with
  | some limit =>
    if limit < accounted then .error ⟨limit, r.accountedBytes, requested⟩
    else .ok { r with accountedBytes := accounted }
  | none => .ok { r with accountedBytes := accounted }

/-- A new chunk, at `base`. -/
def growAndAlloc (layout : Layout) (base : Nat) : Except RegionLimitExceeded (Nat × Region) :=
  match r.byteLimit with
  | some limit => .error ⟨limit, r.accountedBytes - layout.size, layout.size⟩
  | none =>
    let chunkSize := max 4096 (layout.size * 2)
    let aligned := alignUp base layout.align
    .ok (aligned, { r with
      chunks := r.chunks ++ [⟨base, chunkSize⟩], ptr := aligned + layout.size
      stop := base + chunkSize, bytesUsed := r.bytesUsed + layout.size })

def bumpAlloc (layout : Layout) (base : Nat) : Except RegionLimitExceeded (Nat × Region) :=
  let aligned := alignUp r.ptr layout.align
  if aligned + layout.size ≤ r.stop then
    .ok (aligned, { r with ptr := aligned + layout.size, bytesUsed := r.bytesUsed + layout.size })
  else r.growAndAlloc layout base

/-- `alloc` for a value with `extra` bytes out of line. A panic leaves the region as it is then. -/
def alloc (layout : Layout) (extra base : Nat) : Except RegionLimitExceeded Nat × Region :=
  match r.charge (saturatingAdd layout.size extra) with
  | .error e => (.error e, r)
  | .ok r =>
    match r.bumpAlloc layout base with
    | .error e => (.error e, r)
    | .ok (raw, r) =>
      (.ok raw, { r with drops := r.drops ++ [⟨raw, layout⟩], objectCount := r.objectCount + 1 })

/-- `reset`, which keeps the first chunk. -/
def reset : Region :=
  { r with
    chunks := r.chunks.take 1
    ptr := (r.chunks.head?.map Chunk.base).getD r.ptr
    stop := (r.chunks.head?.map fun c => c.base + c.size).getD r.stop
    drops := [], bytesUsed := 0, accountedBytes := 0, objectCount := 0 }

end Region

inductive Call where
  | alloc (layout : Layout) (extra base : Nat)
  | reset

def Call.apply (r : Region) : Call → Region
  | alloc layout extra base => (r.alloc layout extra base).2
  | reset => r.reset

/-! ## Regions with a limit -/

/-- A region with a limit has one chunk, at `base`, and its objects fill it in order, up to `ptr`. -/
structure Bounded (base limit : Nat) (r : Region) : Prop where
  small : limit < 2 ^ 64 - 1
  chunks : r.chunks = [⟨base, limit⟩]
  byteLimit : r.byteLimit = some limit
  stop : r.stop = base + limit
  ptr : base ≤ r.ptr ∧ r.ptr ≤ r.stop
  accounted : r.accountedBytes ≤ limit
  drops : ∀ d ∈ r.drops, base ≤ d.ptr ∧ d.ptr + d.layout.size ≤ r.ptr ∧ d.layout.align ∣ d.ptr
  apart : r.drops.Pairwise fun d e => d.ptr + d.layout.size ≤ e.ptr

/-- What an allocation leaves behind: the block that it returns or, if it fails, the blocks that were
there. The accounted bytes are then as before if it was over the limit, not if the padding was. -/
def Leaves (limit : Nat) (layout : Layout) (extra : Nat) (r : Region) :
    Except RegionLimitExceeded Nat × Region → Prop
  | (.ok raw, r') => r'.drops = r.drops ++ [⟨raw, layout⟩]
  | (.error _, r') => r'.drops = r.drops ∧ r'.chunks = r.chunks ∧
    (r'.accountedBytes = r.accountedBytes ↔
      limit < saturatingAdd r.accountedBytes (saturatingAdd layout.size extra) ∨
        saturatingAdd layout.size extra = 0)

variable {base limit : Nat} {r start : Region}

theorem le_alignUp (ptr : Nat) (layout : Layout) : ptr ≤ alignUp ptr layout.align := by
  have hpos : 0 < layout.align := Nat.pow_pos (by decide)
  have hlt := Nat.lt_div_mul_add (a := ptr + layout.align - 1) hpos
  unfold alignUp
  omega

theorem Bounded.alloc (h : Bounded base limit r) (layout : Layout) (extra fresh : Nat) :
    Bounded base limit (r.alloc layout extra fresh).2 ∧
      Leaves limit layout extra r (r.alloc layout extra fresh) := by
  simp only [Region.alloc, Region.charge, h.byteLimit]
  by_cases hover : limit < saturatingAdd r.accountedBytes (saturatingAdd layout.size extra)
  · rw [if_pos hover]
    exact ⟨h, rfl, rfl, iff_of_true rfl (.inl hover)⟩
  · rw [if_neg hover]
    have hcharged := Nat.le_of_not_lt hover
    simp only [Region.bumpAlloc]
    by_cases hfits : alignUp r.ptr layout.align + layout.size ≤ r.stop
    · rw [if_pos hfits]
      have hnext := le_alignUp r.ptr layout
      have hptr := h.ptr
      refine ⟨⟨h.small, h.chunks, rfl, h.stop, ⟨by dsimp only; omega, hfits⟩, hcharged, ?_, ?_⟩, rfl⟩
      · refine forall_mem_append.mpr ⟨fun d hd => ?_, forall_mem_singleton.mpr ?_⟩
        · obtain ⟨hbase, hend, halign⟩ := h.drops d hd
          exact ⟨hbase, by dsimp only; omega, halign⟩
        · exact ⟨by dsimp only; omega, Nat.le_refl _, Nat.dvd_mul_left _ _⟩
      · refine pairwise_append.mpr ⟨h.apart, pairwise_singleton _ _, fun d hd e he => ?_⟩
        obtain rfl := mem_singleton.mp he
        exact Nat.le_trans (h.drops d hd).2.1 hnext
    · rw [if_neg hfits]
      simp only [Region.growAndAlloc]
      refine ⟨{ h with byteLimit := rfl, accounted := hcharged }, rfl, rfl, ?_⟩
      have hsmall := h.small
      simp only [saturatingAdd] at hover ⊢
      omega

theorem Bounded.apply (h : Bounded base limit r) (call : Call) : Bounded base limit (call.apply r) := by
  cases call with
  | reset =>
    simp only [Call.apply, Region.reset, h.chunks]
    exact ⟨h.small, rfl, h.byteLimit, rfl, ⟨Nat.le_refl _, Nat.le_add_right _ _⟩, Nat.zero_le _,
      forall_mem_nil _, .nil⟩
  | alloc layout extra fresh => exact (h.alloc layout extra fresh).1

theorem Bounded.run : ∀ (calls : List Call) {r : Region}, Bounded base limit r →
    Bounded base limit (calls.foldl Call.apply r)
  | [], _, h => h
  | call :: calls, _, h => Bounded.run calls (h.apply call)

/-- **Bump allocation.** After any calls on a region with a limit, every block that was handed out since
the last reset is in a chunk, aligned and apart from the others, and the accounted bytes keep to the
limit; and what the next allocation leaves behind. -/
theorem bump_allocation_iff (hnew : withLimit base limit = some start) (calls : List Call) :
    let r := calls.foldl Call.apply start
    (∀ d ∈ r.drops, d.layout.align ∣ d.ptr ∧
      ∃ c ∈ r.chunks, c.base ≤ d.ptr ∧ d.ptr + d.layout.size ≤ c.base + c.size) ∧
    r.drops.Pairwise (fun d e => d.ptr + d.layout.size ≤ e.ptr) ∧ r.accountedBytes ≤ limit ∧
    ∀ layout extra fresh, Leaves limit layout extra r (r.alloc layout extra fresh) := by
  intro r
  unfold withLimit at hnew
  split at hnew
  · rename_i hsize
    cases hnew
    have h : Bounded base limit r := Bounded.run calls ⟨by omega, rfl, rfl, rfl,
      ⟨Nat.le_refl _, Nat.le_add_right _ _⟩, Nat.zero_le _, forall_mem_nil _, .nil⟩
    refine ⟨fun d hd => ?_, h.apart, h.accounted, fun layout extra fresh => (h.alloc layout extra fresh).2⟩
    obtain ⟨hbase, hend, halign⟩ := h.drops d hd
    have hlast := Nat.le_trans hend h.ptr.2
    rw [h.stop] at hlast
    exact ⟨halign, ⟨base, limit⟩, h.chunks ▸ mem_singleton_self _, hbase, hlast⟩
  · cases hnew

/-- Three objects in 240 bytes, each with a header of 40 bytes. The second one is aligned to 64 bytes, with
a gap of 8 bytes before it. -/
def gap : List Call := [.alloc ⟨56, 3⟩ 0 0, .alloc ⟨128, 6⟩ 0 0, .alloc ⟨56, 3⟩ 0 0]

theorem bump_allocation_gap : ∃ r, withLimit 4096 240 = some r ∧
    (gap.foldl Call.apply r).accountedBytes ≤ 240 :=
  ⟨_, rfl, (bump_allocation_iff rfl gap).2.2.1⟩

/-- The third one does not fit, and is accounted for all the same. -/
theorem failed_allocation_charged : ∃ r, withLimit 4096 240 = some r ∧
    ((gap.take 2).foldl Call.apply r).accountedBytes = 184 ∧
    (gap.foldl Call.apply r).drops = [⟨4096, ⟨56, 3⟩⟩, ⟨4160, ⟨128, 6⟩⟩] ∧
    (gap.foldl Call.apply r).accountedBytes = 240 :=
  ⟨_, rfl, rfl, rfl, rfl⟩

end Clojurust.Gc.Bump
