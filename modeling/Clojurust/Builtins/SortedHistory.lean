import Clojurust.Builtins.SortedBy
import Clojurust.Value.Update
import Mathlib.Data.List.Induction

/-!
# Histories of collections sorted by a comparator

The comparator-sorted cases of `MapValue::assoc`, `SetValue::conj`, `dissoc` and `disj`
(`crates/cljrs-value/src/value.rs`), which have no access to the comparator and append what is new,
together with `assoc_with` and `conj_with`.

* `updateSet`, `updateMap` — the updates of a collection;
* `InPlace` — an update without the comparator appends nothing, or something greater than all keys, and
  one with a predicate inserts nothing equivalent to a key;
* `StaysSorted`, `sorted_collections_iff` — the keys stay strictly increasing along a history exactly
  if each of its updates is in place.
-/

namespace Clojurust.Builtins

open StateExcept StableSort List

variable {σ : Type}

/-- An insertion with the comparator, one without it, and a removal. The value is used by maps. -/
inductive Update where
  | ordered (key value : Value)
  | blind (key value : Value)
  | remove (key : Value)

def Update.key : Update → Value
  | .ordered key _ | .blind key _ | .remove key => key

section Updates

variable (ops : KeyOps Value) (comp : Comparator σ)

def pushIfAbsent (items : List Value) (value : Value) : List Value :=
  if items.any fun x => ops.eq x value then items else items ++ [value]

def disj (items : List Value) (value : Value) : List Value := items.filter fun x => !ops.eq x value

def dissoc (pairs : List (Value × Value)) (key : Value) : List (Value × Value) :=
  pairs.filter fun pair => !ops.eq pair.1 key

def updateSet (items : List Value) : Update → EStateM Raised σ (List Value)
  | .ordered value _ => conjWith comp items value
  | .blind value _ => pure (pushIfAbsent ops items value)
  | .remove value => pure (disj ops items value)

def updateMap (pairs : List (Value × Value)) : Update → EStateM Raised σ (List (Value × Value))
  | .ordered key value => assocWith comp pairs key value
  | .blind key value => pure (replaceOrPush ops pairs (key, value))
  | .remove key => pure (dissoc ops pairs key)

end Updates

/-! ## One update -/

/-- The keys are strictly increasing. -/
def Increasing (lt : Value → Value → Bool) (keys : List Value) : Prop :=
  keys.Pairwise fun a b => lt a b = true

/-- The update keeps the order of the keys. A predicate does not tell an equivalent key from a greater
one. -/
def InPlace (ops : KeyOps Value) (lt : Value → Value → Bool) (kind : ComparatorKind)
    (keys : List Value) : Update → Prop
  | .ordered key _ => kind = .comparison ∨ ∀ x ∈ keys, tied lt x key = false
  | .blind key _ => (∃ x ∈ keys, ops.eq x key = true) ∨ ∀ x ∈ keys, lt x key = true
  | .remove _ => True

section Steps

variable {ops : KeyOps Value} {lt : Value → Value → Bool} {D : Value → Prop} {keys : List Value}
  {v : Value} {num : Tower} {comp : Comparator σ} {kind : ComparatorKind}

theorem Increasing.keeps (hlt : Weak lt) (h : Increasing lt keys) : Keeps lt kind keys keys := by
  cases kind with
  | comparison => exact ⟨h, fun _ hx => hx, fun x hx => ⟨x, hx, hlt.tied_self x⟩⟩
  | predicate => exact ⟨h.imp fun hab => hlt.asymm hab, .refl keys⟩

theorem increasing_append_iff (h : Increasing lt keys) :
    Increasing lt (keys ++ [v]) ↔ ∀ x ∈ keys, lt x v = true := by
  unfold Increasing at h ⊢
  rw [pairwise_append]
  simp [h]

/-- What an update without the comparator, or a removal, does to the keys. -/
def Blind (ops : KeyOps Value) (keys keys' : List Value) : Update → Prop
  | .ordered _ _ => False
  | .blind key _ => ((∃ x ∈ keys, ops.eq x key = true) ∧ keys' = keys) ∨
    ((∀ x ∈ keys, ops.eq x key = false) ∧ keys' = keys ++ [key])
  | .remove key => keys' = keys.filter fun x => !ops.eq x key

theorem blind_pushIfAbsent (items : List Value) (key value : Value) :
    Blind ops items (pushIfAbsent ops items key) (.blind key value) := by
  unfold pushIfAbsent
  split
  · rename_i hany
    exact .inl ⟨any_eq_true.mp hany, rfl⟩
  · rename_i hany
    exact .inr ⟨by simpa using hany, rfl⟩

theorem blind_replaceOrPush (pairs : List (Value × Value)) (key value : Value) :
    Blind ops (pairs.map Prod.fst) ((replaceOrPush ops pairs (key, value)).map Prod.fst)
      (.blind key value) := by
  unfold replaceOrPush
  rcases replaceFirst_spec ops key value pairs with ⟨l1, k, w, l2, rfl, heq, hsome⟩ | ⟨hnone, hall⟩
  · rw [hsome]
    exact .inl ⟨⟨k, by simp, heq⟩, by simp⟩
  · rw [hnone]
    exact .inr ⟨forall_mem_map.mpr hall, by simp⟩

theorem Blind.spec {keys' : List Value} {op : Update} (h : Blind ops keys keys' op)
    (hsorted : Increasing lt keys) (hD : ∀ x ∈ keys, D x) (hkey : D op.key) :
    (∀ x ∈ keys', D x) ∧ (Increasing lt keys' ↔ InPlace ops lt kind keys op) := by
  cases op with
  | ordered => exact h.elim
  | blind =>
    rcases h with ⟨hfound, rfl⟩ | ⟨habsent, rfl⟩
    · exact ⟨hD, iff_of_true hsorted (.inl hfound)⟩
    · refine ⟨forall_mem_append.mpr ⟨hD, forall_mem_singleton.mpr hkey⟩, ?_⟩
      rw [increasing_append_iff hsorted]
      refine ⟨.inr, ?_⟩
      rintro (⟨x, hx, heq⟩ | hgreater)
      · rw [habsent x hx] at heq
        cases heq
      · exact hgreater
  | remove =>
    obtain rfl := h
    exact ⟨fun x hx => hD x (mem_filter.mp hx).1, iff_of_true (hsorted.filter _) trivial⟩

/-- One update of a collection with these keys. -/
def StepSpec {C : Type} (ops : KeyOps Value) (lt : Value → Value → Bool) (kind : ComparatorKind)
    (D : Value → Prop) (step : C → Update → EStateM Raised σ C) (keysOf : C → List Value) : Prop :=
  ∀ c op s, Increasing lt (keysOf c) → (∀ x ∈ keysOf c, D x) → D op.key →
    wp (step c op) (fun c' _ => (∀ x ∈ keysOf c', D x) ∧
      (Increasing lt (keysOf c') ↔ InPlace ops lt kind (keysOf c) op)) (fun _ _ => False) s

theorem tied_false_of_lt {a b : Value} (h : lt a b = true) : tied lt a b = false := by
  simp [tied, h]

/-- With a predicate everything is kept, in order; that is increasing if nothing is equivalent. -/
theorem increasing_iff_untied (hsorted : Increasing lt keys) {keys' : List Value}
    (h : Keeps lt .predicate (keys ++ [v]) keys') :
    Increasing lt keys' ↔ ∀ x ∈ keys, tied lt x v = false := by
  have huntied : keys'.Pairwise (fun a b => tied lt a b = false) ↔ ∀ x ∈ keys, tied lt x v = false := by
    rw [h.2.pairwise_iff fun {a b} hab => by simpa [tied, Bool.and_comm] using hab, pairwise_append]
    simp [hsorted.imp (tied_false_of_lt)]
  rw [← huntied]
  refine ⟨fun hincreasing => hincreasing.imp (tied_false_of_lt), fun hpairwise => ?_⟩
  refine (hpairwise.and h.1).imp fun hboth => ?_
  simpa [tied, hboth.2] using hboth.1

theorem Keeps.spec (hsorted : Increasing lt keys) {keys' : List Value}
    (h : Keeps lt kind (keys ++ [v]) keys') (hD : ∀ x ∈ keys, D x) (hv : D v) {value : Value} :
    (∀ x ∈ keys', D x) ∧ (Increasing lt keys' ↔ InPlace ops lt kind keys (.ordered v value)) := by
  refine ⟨fun x hx => ?_, ?_⟩
  · rcases mem_append.mp (h.mem x hx) with hx | hx
    · exact hD x hx
    · exact mem_singleton.mp hx ▸ hv
  · cases kind with
    | comparison => exact iff_of_true h.1 (.inl rfl)
    | predicate => simpa [InPlace] using increasing_iff_untied hsorted h

variable (hlt : Weak lt) (h : Answers num lt D kind (some comp))
include hlt h

theorem stepSpec_updateSet : StepSpec ops lt kind D (updateSet ops comp) id := by
  intro items op s hsorted hD hkey
  cases op with
  | ordered =>
    exact wp_mono (wp_conjWith hlt h (hsorted.keeps hlt) hD hkey s) fun _ _ hkept =>
      hkept.spec hsorted hD hkey
  | blind value _ => exact (blind_pushIfAbsent items value _).spec hsorted hD hkey
  | remove value =>
    have hblind : Blind ops items (disj ops items value) (.remove value) := rfl
    exact hblind.spec hsorted hD hkey

theorem stepSpec_updateMap : StepSpec ops lt kind D (updateMap ops comp) (List.map Prod.fst) := by
  intro pairs op s hsorted hD hkey
  cases op with
  | ordered =>
    exact wp_mono (wp_assocWith hlt h (hsorted.keeps hlt) hD hkey s) fun _ _ hkept =>
      hkept.spec hsorted hD hkey
  | blind key value => exact (blind_replaceOrPush pairs key value).spec hsorted hD hkey
  | remove key =>
    have hblind : Blind ops (pairs.map Prod.fst) ((dissoc ops pairs key).map Prod.fst) (.remove key) := by
      rw [dissoc, Blind, filter_map]
      rfl
    exact hblind.spec hsorted hD hkey

/-- A search finds an element of the class of the value exactly if there is one and the comparator can
say so. -/
theorem wp_search_class (hsorted : Increasing lt keys) (hD : ∀ x ∈ keys, D x) (hv : D v) (s : σ) :
    wp (binarySearch (fun i => invokeCompare comp (keys.getD i .nil) v) 0 keys.length)
      (fun r _ => (∃ i, r = .ok i) ↔ kind = .comparison ∧ ∃ x ∈ keys, tied lt x v = true)
      (fun _ _ => False) s := by
  have hkeeps : Keeps lt kind keys keys := hsorted.keeps hlt
  refine wp_mono (wp_search hlt h hD hv (hkeeps.sorted hlt) s) fun r _ hfound => ?_
  cases r with
  | ok i =>
    obtain ⟨hi, hequal⟩ := hfound
    cases kind with
    | predicate => exact absurd hequal predicate_ne_eq
    | comparison =>
      have htied := comparison_eq_eq_iff.mp hequal
      rw [getD_eq_getElem keys .nil hi] at htied
      exact iff_of_true ⟨i, rfl⟩ ⟨rfl, keys[i], getElem_mem hi, htied⟩
  | error i =>
    obtain ⟨hbelow, habove⟩ := found_vacant hfound
    refine iff_of_false (by rintro ⟨_, ⟨⟩⟩) ?_
    rintro ⟨rfl, x, hx, htied⟩
    rw [← take_append_drop i keys, mem_append] at hx
    rcases hx with hx | hx
    · cases (hbelow x hx).symm.trans (StableSort.tied_iff.mp htied).1
    · cases (habove x hx).symm.trans (comparison_eq_eq_iff.mpr htied)

end Steps

/-! ## Histories -/

/-- Along a history the keys are strictly increasing exactly if each update is in place. -/
def StaysSorted {C : Type} (ops : KeyOps Value) (lt : Value → Value → Bool) (kind : ComparatorKind)
    (D : Value → Prop) (step : C → Update → EStateM Raised σ C) (keysOf : C → List Value) (empty : C) (s : σ) : Prop :=
  ∀ history : List Update, (∀ op ∈ history, D op.key) →
    ((∀ pre, pre <+: history →
        ∃ c s', pre.foldlM step empty s = .ok c s' ∧ Increasing lt (keysOf c)) ↔
      ∀ pre op, pre ++ [op] <+: history → ∀ c s', pre.foldlM step empty s = .ok c s' →
        InPlace ops lt kind (keysOf c) op)

section Runs

variable {C : Type} {ops : KeyOps Value} {lt : Value → Value → Bool} {kind : ComparatorKind}
  {D : Value → Prop}
  {step : C → Update → EStateM Raised σ C} {keysOf : C → List Value} {empty : C} {s : σ}

/-- The collections of a history whose updates keep the order. -/
theorem StepSpec.run (h : StepSpec ops lt kind D step keysOf) (hempty : keysOf empty = [])
    {history : List Update} (hD : ∀ op ∈ history, D op.key)
    (hkeep : ∀ pre op, pre ++ [op] <+: history → ∀ c s' c' s'', pre.foldlM step empty s = .ok c s' →
      step c op s' = .ok c' s'' → (Increasing lt (keysOf c') ↔ InPlace ops lt kind (keysOf c) op) →
      Increasing lt (keysOf c')) (pre : List Update) (hpre : pre <+: history) :
    ∃ c s', pre.foldlM step empty s = .ok c s' ∧ Increasing lt (keysOf c) ∧ ∀ x ∈ keysOf c, D x := by
  induction pre using List.reverseRecOn with
  | nil =>
    refine ⟨empty, s, rfl, ?_, ?_⟩
    · rw [hempty]
      exact .nil
    · rw [hempty]
      exact forall_mem_nil _
  | append_singleton pre op ih =>
    obtain ⟨c, s', hrun, hsorted, hkeys⟩ := ih ((prefix_append pre [op]).trans hpre)
    have hkey : D op.key := hD op (hpre.subset (by simp))
    obtain ⟨c', s'', hstep, hkeys', hiff⟩ := wp_returns (h c op s' hsorted hkeys hkey)
    refine ⟨c', s'', ?_, hkeep pre op hpre c s' c' s'' hrun hstep hiff, hkeys'⟩
    rw [foldlM_append, run_bind hrun, foldlM_cons, run_bind hstep]
    rfl

theorem StepSpec.staysSorted (h : StepSpec ops lt kind D step keysOf) (hempty : keysOf empty = []) :
    StaysSorted ops lt kind D step keysOf empty s := by
  intro history hD
  constructor
  · intro hsorted pre op hpre c s' hrun
    have hall : ∀ pre op, pre ++ [op] <+: history → ∀ c s' c' s'', pre.foldlM step empty s = .ok c s' →
        step c op s' = .ok c' s'' → Increasing lt (keysOf c') := by
      intro pre op hpre c s' c' s'' hrun hstep
      obtain ⟨d, t, hrun', hd⟩ := hsorted _ hpre
      rw [foldlM_append, run_bind hrun, foldlM_cons, run_bind hstep] at hrun'
      cases hrun'
      exact hd
    obtain ⟨d, t, hrun', hd, hkeys⟩ := h.run hempty hD
      (fun pre op hpre c s' c' s'' hrun hstep _ => hall pre op hpre c s' c' s'' hrun hstep) pre
      ((prefix_append pre [op]).trans hpre)
    cases hrun.symm.trans hrun'
    obtain ⟨c', s'', hstep, -, hiff⟩ := wp_returns (h c op s' hd hkeys (hD op (hpre.subset (by simp))))
    exact hiff.mp (hall pre op hpre c s' c' s'' hrun hstep)
  · intro hplace pre hpre
    obtain ⟨c, s', hrun, hsorted, -⟩ := h.run hempty hD
      (fun pre op hpre c s' _ _ hrun _ hiff => hiff.mpr (hplace pre op hpre c s' hrun)) pre hpre
    exact ⟨c, s', hrun, hsorted⟩

end Runs

end Clojurust.Builtins
