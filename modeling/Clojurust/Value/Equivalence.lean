import Clojurust.Value.Lawful
import Clojurust.Value.Shape

/-!
# Equality of values as an equivalence

* `Sound` — a class of values closed under parts, without NaNs, whose collections are lawful;
  `Sound.eq_self` — equality is reflexive on it;
* `Regular` — a sound class without an empty sequence beside a lazy seq that realises to `nil`;
  `Regular.eq_core` — wrappers and lazy seqs are transparent;
* `Regular.equivOn` — equality is an equivalence on a regular class.
-/

namespace Clojurust

open Matching Value

namespace Value

/-- The comparisons of values, as a collection uses them on its keys. -/
def keyOps (num : Numerics) : KeyOps Value := ⟨eq num, clojureHash num, cmp num⟩

/-- The keys of a collection. -/
def keys : Value → List Value
  | map m => m.iter.map Prod.fst
  | typeInstance _ fields => fields.iter.map Prod.fst
  | set s => s.iter
  | _ => []

/-- The keys of the collections of a class. -/
def keysOf (D : Set Value) : Set Value := {x | ∃ v ∈ D, x ∈ v.keys}

@[grind cases]
structure Sound (num : Numerics) (D : Set Value) : Prop where
  children : ∀ v ∈ D, ∀ c ∈ v.children, c ∈ D
  notNaN : ∀ v ∈ D, v.isNaN = false
  /-- A cell holds one value. -/
  cells : ∀ cell x y, lazySeq cell x ∈ D → lazySeq cell y ∈ D → x = y
  maps : ∀ m, map m ∈ D → m.Lawful (keyOps num) (keysOf D)
  records : ∀ tag m, typeInstance tag m ∈ D → m.Lawful (keyOps num) (keysOf D)
  sets : ∀ s, set s ∈ D → s.Lawful (keyOps num) (keysOf D)

/-- A sequence in which `value_to_seq_vec` finds no items. -/
def isBlank (v : Value) : Bool := v.isSequential && v.valueToSeqVec.isEmpty

structure Regular (num : Numerics) (D : Set Value) : Prop extends Sound num D where
  /-- Beside a lazy seq that realises to `nil`, a sequence without items is equal to `nil`. -/
  notNil : ∀ cell x, lazySeq cell x ∈ D → x.eq num nil = true → ∀ v ∈ D, v.isBlank = true →
    v.eq num nil = true

/-! ## Wrappers -/

section Wrappers

variable {num : Numerics}

theorem eq_withMeta_left (inner metadata b : Value) :
    (withMeta inner metadata).eq num b = inner.eq num b := by
  rw [eq_eq]
  rfl

theorem eq_withMeta_right (inner metadata : Value) : ∀ a : Value,
    a.eq num (withMeta inner metadata) = a.eq num inner := by
  intro a
  cases a with
  | withMeta inner' =>
    rw [eq_withMeta_left, eq_withMeta_left]
    exact eq_withMeta_right inner metadata inner'
  | _ =>
    rw [eq_eq]
    rfl

theorem eq_reduced_left (inner : Value) : ∀ b : Value,
    (reduced inner).eq num b = inner.eq num b := by
  intro b
  cases b with
  | withMeta inner' =>
    rw [eq_withMeta_right, eq_withMeta_right]
    exact eq_reduced_left inner inner'
  | _ =>
    rw [eq_eq]
    rfl

theorem eq_reduced_right (inner : Value) : ∀ a : Value,
    a.eq num (reduced inner) = a.eq num inner := by
  intro a
  cases a with
  | withMeta inner' =>
    rw [eq_withMeta_left, eq_withMeta_left]
    exact eq_reduced_right inner inner'
  | reduced inner' =>
    rw [eq_reduced_left, eq_reduced_left]
    exact eq_reduced_right inner inner'
  | _ =>
    rw [eq_eq]
    rfl

theorem eq_plain {a b : Value} (ha : a.isPlain = true) (hb : b.isPlain = true) :
    a.eq num b = eqPlain num (eq num) a b := by
  rw [eq_eq]
  unfold eqStep
  split <;> first | rfl | cases ha | cases hb

end Wrappers

/-- The value without wrappers and lazy seqs around it. -/
def core : Value → Value
  | withMeta inner _ | reduced inner => inner.core
  | lazySeq _ realized => realized.core
  | v => v

theorem isPlain_core (v : Value) : v.core.isPlain = true := by
  fun_induction core v with
  | case1 _ _ ih | case2 _ ih | case3 _ _ ih => exact ih
  | case4 v h1 h2 h3 => cases v <;> simp_all [isPlain]

theorem core_of_isPlain {v : Value} (h : v.isPlain = true) : v.core = v := by
  cases v <;> simp_all [isPlain, core]

theorem isPlain_of_ne {v : Value} (hmeta : ∀ inner metadata, v = withMeta inner metadata → False)
    (hreduced : ∀ inner, v = reduced inner → False)
    (hlazy : ∀ cell realized, v = lazySeq cell realized → False) : v.isPlain = true := by
  cases v with
  | withMeta inner metadata => exact (hmeta inner metadata rfl).elim
  | reduced inner => exact (hreduced inner rfl).elim
  | lazySeq cell realized => exact (hlazy cell realized rfl).elim
  | _ => rfl

theorem size_core_le (v : Value) : v.core.size ≤ v.size := by
  fun_induction core v with
  | case1 | case2 | case3 => simp only [size]; omega
  | case4 => exact Nat.le_refl _

variable {num : Numerics}

theorem eqPlain_nil_left {eq : Value → Value → Bool} {v : Value} :
    eqPlain num eq nil v = true ↔ v = nil := by
  cases v <;> simp [eqPlain, valueToSeqVec, itemsEqual]

theorem eq_nil_iff {v : Value} : v.eq num nil = true ↔ v.core = nil := by
  fun_induction core v with
  | case1 inner metadata ih => rw [eq_withMeta_left, ih]
  | case2 inner ih => rw [eq_reduced_left, ih]
  | case3 cell realized ih =>
    rw [← ih, eq_eq]
    simp [eqStep, sameCell, isSequential]
  | case4 v h1 h2 h3 =>
    rw [eq_plain (isPlain_of_ne h1 h2 h3) rfl]
    cases v <;> simp [eqPlain, valueToSeqVec, itemsEqual]

theorem valueToSeqVec_of_core {v : Value} (h : v.core = nil) : v.valueToSeqVec = [] := by
  fun_induction valueToSeqVec v with
  | case1 cell realized ih => exact ih h
  | case2 | case3 | case4 => cases h
  | case5 => rfl

/-- What a lazy seq that realises to `nil` is compared with, unless that is an empty sequence. -/
theorem isEmpty_eq_eqPlain_nil {eq : Value → Value → Bool} {v : Value} (hseq : v.isSequential = true)
    (h : v.isBlank = true → v.core = nil) : v.valueToSeqVec.isEmpty = eqPlain num eq nil v.core := by
  rw [Bool.eq_iff_iff, eqPlain_nil_left, List.isEmpty_iff]
  refine ⟨fun hempty => h ?_, valueToSeqVec_of_core⟩
  rw [isBlank, hseq, hempty]
  rfl

theorem eqPlain_nil_comm {eq : Value → Value → Bool} {v : Value} :
    eqPlain num eq v nil = eqPlain num eq nil v := by
  cases v <;> simp [eqPlain, valueToSeqVec, itemsEqual]

end Value

/-! ## Equality of shapes -/

/-- The values inside a shape are in `E`, its keys are in `K`, and its collections are lawful. -/
def Shape.Within (num : Numerics) (K E : Set Value) : Shape → Prop
  | atom _ => True
  | seq items | queue items => ∀ x ∈ items, x ∈ E
  | map m => m.Lawful (Value.keyOps num) K ∧ ∀ e ∈ m.iter, e.1 ∈ K ∧ e.2 ∈ E
  | set s => s.Lawful (Value.keyOps num) K ∧ ∀ x ∈ s.iter, x ∈ K
  | record _ m => m.Lawful (Value.keyOps num) K ∧ ∀ e ∈ m.iter, e.1 ∈ K ∧ e.2 ∈ E

namespace Shape

variable {num : Numerics} {K E : Set Value} (hsub : K ⊆ E)

include hsub

variable {s : Shape}

theorem rel_refl (hrefl : ∀ x ∈ E, x.eq num x = true) (hs : s.Within num K E) :
    Rel num (eq num) s s := by
  cases s with
  | atom a => rfl
  | seq | queue => exact List.forall₂_same.mpr (fun x hx => hrefl x (hs x hx))
  | map m =>
    exact MapValue.mapsEqual_self hs.1 (fun e he => (hs.2 e he).1)
      (fun e he => ⟨hrefl _ (hsub (hs.2 e he).1), hrefl _ (hs.2 e he).2⟩)
  | set s =>
    exact (SetValue.setsEqual_iff hs.1 hs.1 hs.2).mpr
      ⟨rfl, fun x hx => ⟨x, hx, hrefl x (hsub (hs.2 x hx))⟩⟩
  | record =>
    exact ⟨rfl, MapValue.mapsEqual_self hs.1 (fun e he => (hs.2 e he).1)
      (fun e he => ⟨hrefl _ (hsub (hs.2 e he).1), hrefl _ (hs.2 e he).2⟩)⟩

variable (hequiv : EquivOn (eq num) E)

include hequiv

theorem rel_cancel {t u : Shape} (hs : s.Within num K E) (ht : t.Within num K E)
    (hu : u.Within num K E) (h : Rel num (eq num) s t) (h' : Rel num (eq num) s u) :
    Rel num (eq num) t u := by
  have hkeys : EquivOn (keyOps num).eq K := hequiv.mono hsub
  have hitems : ∀ {l l' l'' : List Value}, (∀ x ∈ l, x ∈ E) → (∀ x ∈ l', x ∈ E) →
      (∀ x ∈ l'', x ∈ E) → List.Forall₂ (fun x y => x.eq num y = true) l l' →
      List.Forall₂ (fun x y => x.eq num y = true) l l'' →
      List.Forall₂ (fun x y => x.eq num y = true) l' l'' := by
    intro l l' l'' hl hl' hl'' h h'
    induction h generalizing l'' with
    | nil =>
      cases h'
      exact .nil
    | @cons x y l l' hxy _ ih =>
      cases h' with
      | @cons _ z _ l'' hxz hrest =>
        simp only [List.forall_mem_cons] at hl hl' hl''
        exact .cons (hequiv.left_cancel hl'.1 hl''.1 hl.1 hxy hxz) (ih hl.2 hl'.2 hl''.2 hrest)
  cases s <;> cases t <;> try exact h.elim
  all_goals cases u <;> try exact h'.elim
  case atom.atom.atom => exact Eq.trans (Eq.symm h) h'
  case seq.seq.seq => exact hitems hs ht hu h h'
  case queue.queue.queue => exact hitems hs ht hu h h'
  case map.map.map => exact MapValue.mapsEqual_cancel hkeys hequiv hs.1 ht.1 hu.1 hs.2 ht.2 hu.2 h h'
  case set.set.set => exact SetValue.setsEqual_cancel hkeys hs.1 ht.1 hu.1 hs.2 ht.2 hu.2 h h'
  case record.record.record =>
    exact ⟨h.1.symm.trans h'.1,
      MapValue.mapsEqual_cancel hkeys hequiv hs.1 ht.1 hu.1 hs.2 ht.2 hu.2 h.2 h'.2⟩

end Shape

namespace Value

/-! ## Regular classes -/

attribute [local simp] children

section Sound

variable {num : Numerics} {D : Set Value} (hD : Sound num D)

include hD

variable {v : Value}

theorem Sound.core_mem (hv : v ∈ D) : v.core ∈ D := by
  fun_induction core v with
  | case1 inner _ ih | case2 inner ih => exact ih (hD.children _ hv inner (by simp))
  | case3 _ realized ih => exact ih (hD.children _ hv realized (by simp))
  | case4 => exact hv

theorem Sound.entries_mem (hv : v ∈ D) {m : MapValue Value Value}
    (hchildren : v.children = m.members) (hkeys : v.keys = m.iter.map Prod.fst) :
    ∀ e ∈ m.iter, (e.1 ∈ keysOf D ∧ e.1 ∈ D ∧ e.1.size < v.size) ∧ e.2 ∈ D ∧ e.2.size < v.size := by
  intro e he
  have hmem := MapValue.mem_members he
  rw [← hchildren] at hmem
  refine ⟨⟨⟨v, hv, ?_⟩, hD.children v hv _ hmem.1, size_lt_of_mem hmem.1⟩,
    hD.children v hv _ hmem.2, size_lt_of_mem hmem.2⟩
  grind

theorem Sound.shape_within (hv : v ∈ D) {E : Set Value}
    (hE : ∀ x ∈ D, x.size < v.size → x ∈ E) : v.shape.Within num (keysOf D ∩ E) E := by
  have hchild : ∀ x ∈ v.children, x ∈ E := fun x hx =>
    hE x (hD.children v hv x hx) (size_lt_of_mem hx)
  have hitems : ∀ x ∈ v.valueToSeqVec, x ∈ E := fun x hx =>
    hE x (forall_valueToSeqVec hD.children (hD.children v hv) x hx) (size_lt_of_mem_valueToSeqVec hx)
  have hentries : ∀ {m : MapValue Value Value}, v.children = m.members →
      v.keys = m.iter.map Prod.fst → ∀ e ∈ m.iter, e.1 ∈ keysOf D ∩ E ∧ e.2 ∈ E := by
    intro m hchildren hkeys e he
    obtain ⟨⟨hkey, h1, hlt1⟩, h2, hlt2⟩ := hD.entries_mem hv hchildren hkeys e he
    exact ⟨⟨hkey, hE _ h1 hlt1⟩, hE _ h2 hlt2⟩
  cases v with
  | list | vector => exact hchild
  | cons => exact hitems
  | queue => exact hchild
  | map m => exact ⟨(hD.maps m hv).mono Set.inter_subset_left, hentries rfl rfl⟩
  | typeInstance tag m => exact ⟨(hD.records tag m hv).mono Set.inter_subset_left, hentries rfl rfl⟩
  | set s =>
    refine ⟨(hD.sets s hv).mono Set.inter_subset_left, ?_⟩
    exact fun x hx => ⟨⟨_, hv, hx⟩, hchild x (SetValue.mem_members hx)⟩
  | _ => trivial

/-- **Equality is reflexive on a sound class.** -/
theorem Sound.eq_self (hv : v ∈ D) : v.eq num v = true := by
  induction hn : v.size using Nat.strong_induction_on generalizing v with
  | _ n ih =>
    have hpart : ∀ c ∈ v.children, c.eq num c = true := fun c hc =>
      ih c.size (hn ▸ size_lt_of_mem hc) (hD.children v hv c hc) rfl
    by_cases hplain : v.isPlain = true
    · rw [eq_plain hplain hplain]
      refine (eqPlain_iff hplain hplain (hD.notNaN v hv) (hD.notNaN v hv)).mpr ?_
      have hwithin := hD.shape_within (E := {x | x ∈ D ∧ x.size < v.size}) hv fun x hx hlt => ⟨hx, hlt⟩
      exact Shape.rel_refl Set.inter_subset_right (fun x hx => ih x.size (hn ▸ hx.2) hx.1 rfl) hwithin
    · cases v with
      | withMeta inner =>
        rw [eq_withMeta_left, eq_withMeta_right]
        exact hpart inner (by simp)
      | reduced inner =>
        rw [eq_reduced_left, eq_reduced_right]
        exact hpart inner (by simp)
      | lazySeq =>
        rw [eq_eq]
        simp [eqStep, sameCell]
      | _ => exact absurd rfl hplain

end Sound

section Regular

variable {num : Numerics} {D : Set Value} (hD : Regular num D)

include hD

theorem Regular.eq_core {a b : Value} (ha : a ∈ D) (hb : b ∈ D) :
    a.eq num b = eqPlain num (eq num) a.core b.core := by
  induction hn : a.size + b.size using Nat.strong_induction_on generalizing a b with
  | _ n ih =>
    have hleft : ∀ c ∈ a.children, c.eq num b = eqPlain num (eq num) c.core b.core := by
      intro c hc
      have := size_lt_of_mem hc
      exact ih (c.size + b.size) (by omega) (hD.children a ha c hc) hb rfl
    have hright : ∀ c ∈ b.children, a.eq num c = eqPlain num (eq num) a.core c.core := by
      intro c hc
      have := size_lt_of_mem hc
      exact ih (a.size + c.size) (by omega) ha (hD.children b hb c hc) rfl
    rw [eq_eq]
    unfold eqStep
    split
    · exact hleft _ (by simp)
    · exact hright _ (by simp)
    · exact hleft _ (by simp)
    · exact hright _ (by simp)
    · split
      · -- the same cell: the same value, which is equal to itself
        rename_i hsame
        cases b <;> simp only [sameCell, Bool.false_eq_true, beq_iff_eq] at hsame
        subst hsame
        obtain rfl := hD.cells _ _ _ ha hb
        have hself := hD.eq_self (hD.core_mem ha)
        rw [eq_plain (isPlain_core _) (isPlain_core _)] at hself
        exact hself.symm
      · split
        · rename_i realized _ _ _ hnil
          rw [Bool.and_eq_true] at hnil
          rw [isEmpty_eq_eqPlain_nil hnil.2 fun hblank =>
            eq_nil_iff.mp (hD.notNil _ _ ha hnil.1 _ hb hblank)]
          exact congrArg (eqPlain num _ · _) (eq_nil_iff.mp hnil.1).symm
        · exact hleft _ (by simp)
    · split
      · rename_i realized _ _ _ hnil
        rw [Bool.and_eq_true] at hnil
        rw [isEmpty_eq_eqPlain_nil hnil.2 fun hblank =>
          eq_nil_iff.mp (hD.notNil _ _ hb hnil.1 _ ha hblank), ← eqPlain_nil_comm]
        exact congrArg (eqPlain num _ _) (eq_nil_iff.mp hnil.1).symm
      · exact hright _ (by simp)
    · rw [core_of_isPlain (isPlain_of_ne ‹_› ‹_› ‹_›), core_of_isPlain (isPlain_of_ne ‹_› ‹_› ‹_›)]

theorem Regular.eq_iff_shape {a b : Value} (ha : a ∈ D) (hb : b ∈ D) :
    a.eq num b = true ↔ Shape.Rel num (eq num) a.core.shape b.core.shape := by
  rw [hD.eq_core ha hb]
  exact eqPlain_iff (isPlain_core a) (isPlain_core b) (hD.notNaN _ (hD.core_mem ha))
    (hD.notNaN _ (hD.core_mem hb))

/-- **Equality is an equivalence on a regular class.** -/
theorem Regular.equivOn : EquivOn (eq num) D := by
  -- by a bound on the sizes: the parts of a value are in the class with the smaller bound
  have hbounded : ∀ n, EquivOn (eq num) {v | v ∈ D ∧ v.size < n} := by
    intro n
    induction n with
    | zero => exact .of_cancel (fun x hx => (Nat.not_lt_zero _ hx.2).elim) fun x hx => (Nat.not_lt_zero _ hx.2).elim
    | succ n ih =>
      have hwithin : ∀ v ∈ {v | v ∈ D ∧ v.size < n + 1},
          v.core.shape.Within num (keysOf D ∩ {v | v ∈ D ∧ v.size < n}) {v | v ∈ D ∧ v.size < n} := by
        intro v hv
        have := size_core_le v
        have := hv.2
        exact hD.shape_within (hD.core_mem hv.1) (fun x hx hlt => ⟨hx, by omega⟩)
      refine .of_cancel (fun x hx => hD.eq_self hx.1) fun z hz x hx y hy h h' => ?_
      rw [hD.eq_iff_shape hz.1 hx.1] at h
      rw [hD.eq_iff_shape hz.1 hy.1] at h'
      rw [hD.eq_iff_shape hx.1 hy.1]
      exact Shape.rel_cancel Set.inter_subset_right ih (hwithin z hz) (hwithin x hx) (hwithin y hy) h h'
  refine .of_cancel (fun x hx => hD.eq_self hx) fun z hz x hx y hy => ?_
  exact (hbounded (z.size + x.size + y.size + 1)).left_cancel ⟨hx, by omega⟩ ⟨hy, by omega⟩ ⟨hz, by omega⟩

end Regular

end Value

end Clojurust
