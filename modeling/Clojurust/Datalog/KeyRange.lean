import Clojurust.Datalog.Scan

/-!
# Ranges of keys

A pair of bounds, as key prefixes, is turned into a half-open range of keys.

* `AtLeast`, `AtMost` — what a low and a high prefix cut off, `mem_rangeKeys_iff` — the range
  they resolve to;
* `sliceKeys_eq` — walking the range from either end visits its keys;
* `endRank_sub` — the difference of the ranks of its ends is their number.
-/

namespace Clojurust.Datalog

open SortedTable List

/-- The key is not cut off by a low bound with the prefix `p`. -/
def AtLeast (p : Bytes) (closed : Bool) (k : Bytes) : Prop :=
  p = [] ∨ if closed then compare k p ≠ .lt else ¬ UpTo p k

/-- The key is not cut off by a high bound with the prefix `p`. -/
def AtMost (p : Bytes) (closed : Bool) (k : Bytes) : Prop :=
  p = [] ∨ if closed then UpTo p k else compare k p = .lt

/-- The keys of a resolved range, ascending. -/
def rangeKeys (t : Table Bytes Bytes) : Option (Bytes × Option Bytes) → List Bytes
  | none => []
  | some (lo, hi) => t.keys.filter (fun k => !(compare k lo == .lt) && !beyond hi k)

/-! ## The ends of a range -/

theorem lt_of_not_lt_of_lt {lo k hi : Bytes} (h : compare k lo ≠ .lt) (h' : compare k hi = .lt) :
    compare lo hi = .lt := by
  cases hk : compare lo k with
  | lt => exact Std.TransCmp.lt_trans hk h'
  | eq => grind
  | gt => exact absurd (Std.OrientedCmp.lt_of_gt hk) h

theorem lowEnd_spec (p : Bytes) (closed : Bool) (k : Bytes) :
    match (if closed ∨ p = [] then some p else prefixSuccessor p) with
    | some lo => compare k lo ≠ .lt ↔ AtLeast p closed k
    | none => ¬ AtLeast p closed k := by
  by_cases hp : p = []
  · subst hp
    simp [AtLeast, compare_nil_ne_lt]
  · cases closed with
    | true => simp [AtLeast, hp]
    | false =>
      have := prefixSuccessor_spec p k
      simp only [Bool.false_eq_true, hp, or_self, if_false, AtLeast, false_or]
      grind

attribute [local simp] beyond

theorem highEnd_spec (p : Bytes) (closed : Bool) (k : Bytes) :
    beyond (if p = [] then none else if closed then prefixSuccessor p else some p) k = false ↔
      AtMost p closed k := by
  by_cases hp : p = []
  · simp [AtMost, hp]
  · cases closed with
    | false => simp [AtMost, hp]
    | true =>
      have := prefixSuccessor_spec p k
      simp only [hp, if_false, AtMost, false_or, if_true]
      cases hs : prefixSuccessor p with
      | some hi | none =>
        rw [hs] at this
        simpa using this

variable (t : Table Bytes Bytes)

theorem mem_rangeKeys_iff (lp : Bytes) (lc : Bool) (hp : Bytes) (hc : Bool)
    (k : Bytes) : k ∈ rangeKeys t (rangeOfPrefixes lp lc hp hc) ↔
      k ∈ t.keys ∧ AtLeast lp lc k ∧ AtMost hp hc k := by
  have hlow := lowEnd_spec lp lc k
  have hhigh := highEnd_spec hp hc k
  unfold rangeOfPrefixes
  cases hlo : (if lc = true ∨ lp = [] then some lp else prefixSuccessor lp) with
  | none =>
    rw [hlo] at hlow
    simp only [rangeKeys, not_mem_nil, false_iff]
    exact fun h => hlow h.2.1
  | some lo =>
    rw [hlo] at hlow
    cases hhi : (if hp = [] then none else if hc = true then prefixSuccessor hp else some hp) with
    | none =>
      rw [hhi] at hhigh
      simp only [rangeKeys, mem_filter, Bool.and_eq_true, Bool.not_eq_true',
        beq_eq_false_iff_ne, hlow, hhigh]
    | some hi =>
      rw [hhi] at hhigh
      by_cases hlt : compare lo hi = .lt
      · simp only [hlt, if_true, rangeKeys, mem_filter, Bool.and_eq_true, Bool.not_eq_true',
          beq_eq_false_iff_ne, hlow, hhigh]
      · simp only [hlt, if_false, rangeKeys, not_mem_nil, false_iff]
        -- no key lies between an end and a smaller one
        rintro ⟨-, hl, hh⟩
        have hk : compare k hi = .lt := by simpa using hhigh.mpr hh
        exact hlt (lt_of_not_lt_of_lt (hlow.mpr hl) hk)

/-! ## Walks and ranks -/

/-- The list, or its reverse. -/
def directed {α : Type} (reverse : Bool) (l : List α) : List α := if reverse then l.reverse else l

theorem beyond_mono {hi : Option Bytes} {x y : Bytes} (hxy : compare x y = .lt)
    (hy : beyond hi y = false) : beyond hi x = false := by
  cases hi with
  | none => rfl
  | some hi =>
    simp only [beyond, bne_eq_false_iff_eq] at hy ⊢
    exact Std.TransCmp.lt_trans hxy hy

theorem keys_rangeFrom (lo : Bytes) :
    (rangeFrom (if lo.isEmpty then none else some lo) t).map Prod.fst =
      t.keys.filter (fun k => !(compare k lo == .lt)) := by
  unfold Table.keys
  rw [filter_map]
  cases lo with
  | nil =>
    simp only [isEmpty_nil, if_true, rangeFrom]
    rw [filter_eq_self.mpr]
    simp [compare_nil_ne_lt]
  | cons =>
    simp only [isEmpty_cons, Bool.false_eq_true, if_false, rangeFrom, seek_eq_filter t.sorted]
    rfl

theorem keysBefore_eq (hi : Option Bytes) :
    keysBefore t hi = t.keys.filter (fun k => !beyond hi k) := by
  cases hi with
  | none => exact (filter_eq_self.mpr (fun _ _ => rfl)).symm
  | some hi =>
    simp only [keysBefore]
    rw [(while_eq_filter ?_).1]
    · refine filter_congr ?_
      simp [bne]
    · refine t.keys_sorted.imp ?_
      intro x y hxy hy
      simp only [beq_iff_eq] at hy ⊢
      exact Std.TransCmp.lt_trans hxy hy

theorem sliceKeys_eq (lo : Bytes) (hi : Option Bytes) (reverse : Bool) :
    sliceKeys t lo hi reverse = directed reverse (rangeKeys t (some (lo, hi))) := by
  cases reverse with
  | false =>
    simp only [sliceKeys, Bool.false_eq_true, if_false, directed, rangeKeys, keys_rangeFrom]
    rw [(while_eq_filter ?_).1, filter_filter]
    · simp only [Bool.and_comm]
    · refine (t.keys_sorted.filter _).imp ?_
      intro x y hxy hy
      simpa using beyond_mono hxy (by simpa using hy)
  | true =>
    simp only [sliceKeys, if_true, directed, rangeKeys]
    rw [keysBefore_eq, (while_eq_filter ?_).1, filter_reverse, filter_filter]
    · rfl
    · refine pairwise_reverse.mpr ((t.keys_sorted.filter _).imp ?_)
      intro y x hyx hy
      simp only [bne_iff_ne, ne_eq] at hy ⊢
      exact fun hx => hy (Std.TransCmp.lt_trans hyx hx)

theorem endRank_eq (hi : Option Bytes) : endRank t hi = t.keys.countP (fun k => !beyond hi k) := by
  cases hi with
  | none => simp [endRank, countAll, Table.keys]
  | some hi =>
    simp only [endRank, countBelow_eq]
    congr 1
    simp [bne]

theorem endRank_sub (lo : Bytes) (hi : Option Bytes) (hlt : ∀ h, hi = some h → compare lo h = .lt) :
    endRank t hi - (if lo.isEmpty then 0 else countBelow t lo) =
      (rangeKeys t (some (lo, hi))).length := by
  have hstart : (if lo.isEmpty then 0 else countBelow t lo) =
      t.keys.countP (fun k => compare k lo == .lt) := by
    cases lo with
    | nil =>
      refine (countP_eq_zero.mpr ?_).symm
      simp [compare_nil_ne_lt]
    | cons b lo => exact countBelow_eq t (b :: lo)
  rw [hstart, endRank_eq, countP_sub, rangeKeys, countP_eq_length_filter]
  · simp only [Bool.and_comm]
  · intro k hk
    cases hi with
    | none => rfl
    | some hi =>
      simp only [beq_iff_eq] at hk
      have := Std.TransCmp.lt_trans hk (hlt hi rfl)
      simp [this]

end Clojurust.Datalog
