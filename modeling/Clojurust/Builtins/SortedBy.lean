import Clojurust.Builtins.Promotion
import Clojurust.Builtins.Sorting

/-!
# Collections sorted by a comparator

`sorted-set-by` and `sorted-map-by` (`SortedBySet`, `SortedByMap` and `binary_search` of
`crates/cljrs-value/src/collections/sorted_by.rs`).

* `binarySearch`, `conjWith`, `assocWith`, `builtinSortedSetBy`, `builtinSortedMapBy`;
* `Found` — what a search answers in a sorted list;
* `Keeps` — what a collection keeps of the values put into it: with a comparison one of each class, with
  a predicate all of them;
* `sorting_iff` — which laws of sorting hold with which comparators.

Left out are lookups, and the argument lists that the arity check refuses; removals are part of
`SortedHistory`.
-/

namespace Clojurust.Builtins

open StateExcept StableSort Traversal List

variable {σ : Type}

/-! ## Searching -/

/-- The place of an element that is equal to the one searched for, or the place to insert it. -/
def binarySearch {ε : Type} (probe : Nat → EStateM ε σ Ordering) (lo hi : Nat) :
    EStateM ε σ (Except Nat Nat) := do
  if lo < hi then
    match (← probe ((lo + hi) / 2)) with
    | .lt => binarySearch probe ((lo + hi) / 2 + 1) hi
    | .gt => binarySearch probe lo ((lo + hi) / 2)
    | .eq => return .ok ((lo + hi) / 2)
  else return .error lo
termination_by hi - lo

/-- `Vec::insert`. -/
def insertAt {α : Type} (items : List α) (i : Nat) (x : α) : List α := items.take i ++ x :: items.drop i

def conjWith (comp : Comparator σ) (items : List Value) (value : Value) :
    EStateM Raised σ (List Value) := do
  match (← binarySearch (fun i => invokeCompare comp (items.getD i .nil) value) 0 items.length) with
  | .ok _ => return items
  | .error i => return insertAt items i value

def assocWith (comp : Comparator σ) (pairs : List (Value × Value)) (key value : Value) :
    EStateM Raised σ (List (Value × Value)) := do
  match (← binarySearch (fun i => invokeCompare comp ((pairs.map Prod.fst).getD i .nil) key) 0
      pairs.length) with
  | .ok i => return pairs.set i (key, value)
  | .error i => return insertAt pairs i (key, value)

def builtinSortedSetBy (comp : Comparator σ) (args : List Value) : EStateM Raised σ (List Value) :=
  args.foldlM (conjWith comp) []

def builtinSortedMapBy (comp : Comparator σ) (args : List (Value × Value)) :
    EStateM Raised σ (List (Value × Value)) :=
  args.foldlM (fun pairs entry => assocWith comp pairs entry.1 entry.2) []

/-- What a search finds, for an answer of each place. -/
def Found (answer : Nat → Ordering) (len : Nat) : Except Nat Nat → Prop
  | .ok i => i < len ∧ answer i = .eq
  | .error i => i ≤ len ∧ (∀ j < i, answer j = .lt) ∧ ∀ j, i ≤ j → j < len → answer j = .gt

theorem wp_binarySearch {ε : Type} {probe : Nat → EStateM ε σ Ordering} {answer : Nat → Ordering}
    {len : Nat} (h : ∀ i < len, ∀ s, wp (probe i) (fun o _ => o = answer i) (fun _ _ => False) s)
    (hless : ∀ i j, i < j → j < len → answer j = .lt → answer i = .lt)
    (hgreater : ∀ i j, i < j → j < len → answer i = .gt → answer j = .gt) (lo hi : Nat)
    (hlo : lo ≤ hi) (hhi : hi ≤ len) (hbelow : ∀ j < lo, answer j = .lt)
    (habove : ∀ j, hi ≤ j → j < len → answer j = .gt) (s : σ) :
    wp (binarySearch probe lo hi) (fun r _ => Found answer len r) (fun _ _ => False) s := by
  fun_induction binarySearch probe lo hi generalizing s with
  | case1 lo hi hlt ihLess ihGreater =>
    have hmid : (lo + hi) / 2 < len := by omega
    refine wp_seq (h _ hmid s) ?_
    intro o s' ho
    cases o with
    | lt | gt => grind
    | eq => exact ⟨hmid, ho.symm⟩
  | case2 lo hi hdone => exact ⟨by omega, hbelow, fun j hj => habove j (by omega)⟩

/-! ## What is kept -/

/-- What a collection keeps of the values put into it, in their order. -/
def Keeps (lt : Value → Value → Bool) (kind : ComparatorKind) (seen kept : List Value) : Prop :=
  match kind with
  | .comparison => (kept.Pairwise fun a b => lt a b = true) ∧ (∀ x ∈ kept, x ∈ seen) ∧
    ∀ x ∈ seen, ∃ y ∈ kept, tied lt x y = true
  | .predicate => (kept.Pairwise fun a b => lt b a = false) ∧ kept.Perm seen

variable {α : Type}

theorem insertAt_perm (items : List α) (i : Nat) (x : α) :
    (insertAt items i x).Perm (x :: items) := by
  have hmiddle : (insertAt items i x).Perm (x :: (items.take i ++ items.drop i)) := perm_middle
  rwa [take_append_drop] at hmiddle

theorem pairwise_insertAt {R : α → α → Prop} {items : List α} {i : Nat} {x : α}
    (h : items.Pairwise R) (hbelow : ∀ a ∈ items.take i, R a x) (habove : ∀ b ∈ items.drop i, R x b) :
    (insertAt items i x).Pairwise R := by
  rw [← take_append_drop i items, pairwise_append] at h
  obtain ⟨htake, hdrop, hcross⟩ := h
  refine pairwise_append.mpr ⟨htake, pairwise_cons.mpr ⟨habove, hdrop⟩, ?_⟩
  grind

section Laws

variable {lt : Value → Value → Bool}

variable {a b : Value} {kind : ComparatorKind} {items : List Value} {v : Value} {i : Nat}
  {seen kept : List Value} {num : Tower} {D : Value → Prop} {comp : Comparator σ}

theorem predicate_eq_gt_iff : ComparatorKind.predicate.answer lt a b = .gt ↔ lt a b = false := by
  rw [ComparatorKind.answer]
  cases lt a b <;> decide

theorem comparison_eq_eq_iff :
    ComparatorKind.comparison.answer lt a b = .eq ↔ tied lt a b = true := by
  rw [tied_iff, ComparatorKind.answer, orderOf]
  cases lt a b <;> cases lt b a <;> decide

theorem predicate_ne_eq : ComparatorKind.predicate.answer lt a b ≠ .eq := by
  rw [ComparatorKind.answer]
  cases lt a b <;> decide

theorem found_vacant
    (h : Found (fun i => kind.answer lt (items.getD i .nil) v) items.length (.error i)) :
    (∀ x ∈ items.take i, lt x v = true) ∧ ∀ x ∈ items.drop i, kind.answer lt x v = .gt := by
  obtain ⟨-, hbelow, habove⟩ := h
  constructor
  · intro x hx
    obtain ⟨j, hj, rfl⟩ := mem_take_iff_getElem.mp hx
    have hless : kind.answer lt (items.getD j .nil) v = .lt := hbelow j (by omega)
    rw [getD_eq_getElem items .nil (by omega), ← beq_iff_eq, kind.answer_beq_lt] at hless
    exact hless
  · intro x hx
    obtain ⟨j, hj, rfl⟩ := mem_drop_iff_getElem.mp hx
    grind

theorem Keeps.mem (h : Keeps lt kind seen kept) : ∀ x ∈ kept, x ∈ seen := by
  cases kind with
  | comparison => exact h.2.1
  | predicate => exact fun x hx => h.2.mem_iff.mp hx

theorem keeps_nil (kind : ComparatorKind) : Keeps lt kind [] [] := by
  cases kind with
  | comparison => exact ⟨.nil, fun _ hx => hx, fun _ hx => nomatch hx⟩
  | predicate => exact ⟨.nil, .refl []⟩

variable (hlt : Weak lt)
include hlt

theorem comparison_eq_gt_iff : ComparatorKind.comparison.answer lt a b = .gt ↔ lt b a = true := by
  rw [← Bool.not_eq_false', ← ComparatorKind.comparison_answer_bne_gt hlt a b, bne_eq_false_iff_eq]

theorem Keeps.sorted (h : Keeps lt kind seen kept) : kept.Pairwise fun a b => lt b a = false := by
  cases kind with
  | comparison => exact h.1.imp fun hab => hlt.asymm hab
  | predicate => exact h.1

theorem Keeps.insert (h : Keeps lt kind seen kept)
    (hfound : Found (fun i => kind.answer lt (kept.getD i .nil) v) kept.length (.error i)) :
    Keeps lt kind (seen ++ [v]) (insertAt kept i v) := by
  obtain ⟨hbelow, habove⟩ := found_vacant hfound
  have hperm := insertAt_perm kept i v
  cases kind with
  | comparison =>
    obtain ⟨hpairwise, hseen, hclass⟩ := h
    refine ⟨pairwise_insertAt hpairwise hbelow fun x hx => (comparison_eq_gt_iff hlt).mp (habove x hx),
      ?_, ?_⟩
    · grind
    · intro x hx
      rcases mem_append.mp hx with hx | hx
      · grind
      · obtain rfl := mem_singleton.mp hx
        exact ⟨x, hperm.mem_iff.mpr (.head _), hlt.tied_self x⟩
  | predicate =>
    refine ⟨pairwise_insertAt h.1 (fun x hx => hlt.asymm (hbelow x hx))
      fun x hx => predicate_eq_gt_iff.mp (habove x hx), ?_⟩
    exact hperm.trans ((h.2.cons v).trans (perm_append_singleton v seen).symm)

/-- The class of a value for which an equal one is found is there already. -/
theorem Keeps.present (h : Keeps lt kind seen kept)
    (hfound : Found (fun i => kind.answer lt (kept.getD i .nil) v) kept.length (.ok i)) :
    Keeps lt kind (seen ++ [v]) kept ∧ Keeps lt kind (seen ++ [v]) (kept.set i v) := by
  obtain ⟨hi, hequal⟩ := hfound
  cases kind with
  | predicate => exact absurd hequal predicate_ne_eq
  | comparison =>
    have htied : tied lt kept[i] v = true := by
      rw [← getD_eq_getElem kept .nil hi]
      exact comparison_eq_eq_iff.mp hequal
    obtain ⟨hpairwise, hseen, hclass⟩ := h
    refine ⟨⟨hpairwise, fun x hx => mem_append_left _ (hseen x hx), ?_⟩, ?_, ?_, ?_⟩
    · intro x hx
      rcases mem_append.mp hx with hx | hx
      · exact hclass x hx
      · obtain rfl := mem_singleton.mp hx
        exact ⟨kept[i], getElem_mem hi, (tied_comm _ _).trans htied⟩
    · -- the new element is in the place of an equal one
      rw [pairwise_iff_getElem] at hpairwise ⊢
      intro a b ha hb hab
      rw [length_set] at ha hb
      rw [getElem_set, getElem_set]
      have hbetween := hpairwise a b ha hb hab
      split
      · subst i
        rw [if_neg (by omega)]
        exact hlt.lt_of_not_lt_of_lt (tied_iff.mp htied).1 hbetween
      · split
        · subst i
          exact hlt.lt_of_lt_of_not_lt hbetween (tied_iff.mp htied).2
        · exact hbetween
    · grind
    · have hv : v ∈ kept.set i v := mem_set hi v
      intro x hx
      rcases mem_append.mp hx with hx | hx
      · obtain ⟨y, hy, hxy⟩ := hclass x hx
        obtain ⟨j, hj, rfl⟩ := getElem_of_mem hy
        by_cases hij : i = j
        · subst hij
          exact ⟨v, hv, hlt.tied_trans hxy htied⟩
        · refine ⟨kept[j], ?_, hxy⟩
          have hsame : (kept.set i v)[j]? = some kept[j] := by
            rw [getElem?_set_ne hij, getElem?_eq_getElem hj]
          exact mem_of_getElem? hsame
      · obtain rfl := mem_singleton.mp hx
        exact ⟨x, hv, hlt.tied_self x⟩

variable (h : Answers num lt D kind (some comp))
include h

theorem wp_search (hD : ∀ x ∈ items, D x)
    (hv : D v) (hsorted : items.Pairwise fun a b => lt b a = false) (s : σ) :
    wp (binarySearch (fun i => invokeCompare comp (items.getD i .nil) v) 0 items.length)
      (fun r _ => Found (fun i => kind.answer lt (items.getD i .nil) v) items.length r)
      (fun _ _ => False) s := by
  have hget : ∀ i (hi : i < items.length), items.getD i .nil = items[i] := fun i hi =>
    getD_eq_getElem items .nil hi
  have hle : ∀ i j, i < j → j < items.length → lt (items.getD j .nil) (items.getD i .nil) = false := by
    intro i j hij hj
    rw [hget j hj, hget i (by omega)]
    exact pairwise_iff_getElem.mp hsorted i j (by omega) hj hij
  refine wp_binarySearch ?_ ?_ ?_ 0 items.length (Nat.zero_le _) le_rfl (fun j hj => by omega)
    (fun j hj hlen => by omega) s
  · intro i hi s
    have hmem : items.getD i .nil ∈ items := by
      rw [hget i hi]
      exact getElem_mem hi
    exact h.wp_compareWith (hD _ hmem) hv s
  · intro i j hij hj hless
    rw [← beq_iff_eq, kind.answer_beq_lt] at hless ⊢
    exact hlt.lt_of_not_lt_of_lt (hle i j hij hj) hless
  · intro i j hij hj hgreater
    cases kind with
    | comparison =>
      rw [comparison_eq_gt_iff hlt] at hgreater ⊢
      exact hlt.lt_of_lt_of_not_lt hgreater (hle i j hij hj)
    | predicate =>
      rw [predicate_eq_gt_iff] at hgreater ⊢
      exact hlt.not_lt_trans hgreater (hle i j hij hj)

theorem wp_conjWith (hkept : Keeps lt kind seen kept) (hD : ∀ x ∈ seen, D x) (hv : D v) (s : σ) :
    wp (conjWith comp kept v) (fun kept' _ => Keeps lt kind (seen ++ [v]) kept')
      (fun _ _ => False) s := by
  refine wp_seq (wp_search hlt h (fun x hx => hD x (hkept.mem x hx)) hv (hkept.sorted hlt) s) ?_
  intro r s' hfound
  cases r with
  | ok i => exact (hkept.present hlt hfound).1
  | error i => exact hkept.insert hlt hfound

theorem wp_assocWith {pairs : List (Value × Value)}
    {key value : Value} (hkept : Keeps lt kind seen (pairs.map Prod.fst)) (hD : ∀ x ∈ seen, D x)
    (hkey : D key) (s : σ) :
    wp (assocWith comp pairs key value)
      (fun pairs' _ => Keeps lt kind (seen ++ [key]) (pairs'.map Prod.fst)) (fun _ _ => False) s := by
  have hsearch := wp_search hlt h (fun x hx => hD x (hkept.mem x hx)) hkey (hkept.sorted hlt) s
  rw [length_map] at hsearch
  refine wp_seq hsearch ?_
  intro r s' hfound
  rw [← length_map (f := Prod.fst)] at hfound
  cases r with
  | ok i =>
    have hset := (hkept.present hlt hfound).2
    show Keeps lt kind (seen ++ [key]) ((pairs.set i (key, value)).map Prod.fst)
    rwa [map_set]
  | error i =>
    have hinsert := hkept.insert hlt hfound
    show Keeps lt kind (seen ++ [key]) ((insertAt pairs i (key, value)).map Prod.fst)
    rwa [insertAt, map_append, map_cons, map_take, map_drop]

theorem wp_builtinSortedSetBy {args : List Value} (hD : ∀ x ∈ args, D x) (s : σ) :
    wp (builtinSortedSetBy comp args) (fun kept _ => Keeps lt kind args kept) (fun _ _ => False) s := by
  have hfold : wp (args.foldlM (conjWith comp) [])
      (fun kept _ => (∀ x ∈ [] ++ args, D x) ∧ Keeps lt kind ([] ++ args) kept) (fun _ _ => False) s := by
    refine wp_foldlM (R := fun seen kept => (∀ x ∈ seen, D x) ∧ Keeps lt kind seen kept) ?_
      ⟨forall_mem_nil _, keeps_nil kind⟩ s
    rintro v hv seen kept ⟨hseen, hkept⟩ s
    refine wp_mono (wp_conjWith hlt h hkept hseen (hD v hv) s) fun kept' _ hkept' => ⟨?_, hkept'⟩
    exact forall_mem_append.mpr ⟨hseen, forall_mem_singleton.mpr (hD v hv)⟩
  exact wp_mono hfold fun _ _ hkept => hkept.2

theorem wp_builtinSortedMapBy {args : List (Value × Value)} (hD : ∀ x ∈ args, D x.1) (s : σ) :
    wp (builtinSortedMapBy comp args)
      (fun pairs _ => Keeps lt kind (args.map Prod.fst) (pairs.map Prod.fst)) (fun _ _ => False) s := by
  have hfold : wp (args.foldlM (fun pairs entry => assocWith comp pairs entry.1 entry.2) [])
      (fun pairs _ => (∀ x ∈ ([] ++ args).map Prod.fst, D x) ∧
        Keeps lt kind (([] ++ args).map Prod.fst) (pairs.map Prod.fst)) (fun _ _ => False) s := by
    refine wp_foldlM (R := fun seen (pairs : List (Value × Value)) => (∀ x ∈ seen.map Prod.fst, D x) ∧
      Keeps lt kind (seen.map Prod.fst) (pairs.map Prod.fst)) ?_
      ⟨forall_mem_nil _, keeps_nil kind⟩ s
    rintro entry hentry seen pairs ⟨hseen, hkept⟩ s
    rw [map_append, map_singleton]
    refine wp_mono (wp_assocWith hlt h hkept hseen (hD entry hentry) s)
      fun pairs' _ hkept' => ⟨?_, hkept'⟩
    exact forall_mem_append.mpr ⟨hseen, forall_mem_singleton.mpr (hD entry hentry)⟩
  exact wp_mono hfold fun _ _ hkept => hkept.2

end Laws

section Refused

variable {D : Value → Prop} {comp : Comparator σ}

theorem wp_search_refused (h : Refuses D comp) {items : List Value} {v : Value} (hD : ∀ x ∈ items, D x)
    (hlen : 0 < items.length) (hv : D v) (s : σ) :
    wp (binarySearch (fun i => invokeCompare comp (items.getD i .nil) v) 0 items.length)
      (fun _ _ => False) (fun e _ => e.IsError) s := by
  have hmid : (0 + items.length) / 2 < items.length := by omega
  have hprobe : D (items.getD ((0 + items.length) / 2) .nil) := by
    rw [getD_eq_getElem items .nil hmid]
    exact hD _ (getElem_mem hmid)
  rw [binarySearch, if_pos hlen]
  exact wp_seq (h.wp_invokeCompare hprobe hv s) fun _ _ hfalse => hfalse.elim

/-- A second element has to be compared with the first one. -/
theorem sortedSetBy_refused (h : Refuses D comp) {args : List Value} (hD : ∀ x ∈ args, D x) (s : σ) :
    if args.length ≤ 1 then builtinSortedSetBy comp args s = .ok args s
    else ∃ err s', builtinSortedSetBy comp args s = .error (.error err) s' := by
  have hone : ∀ x, conjWith comp [] x s = .ok [x] s := fun x => by
    rw [conjWith, binarySearch]
    rfl
  match args, hD with
  | [], _ => exact rfl
  | [x], _ => exact run_bind (hone x)
  | x :: y :: rest, hD =>
    rw [if_neg (by simp), builtinSortedSetBy, foldlM_cons, run_bind (hone x), foldlM_cons]
    have hx : ∀ z ∈ [x], D z := forall_mem_singleton.mpr (hD x (.head _))
    have hsearch := wp_search_refused h hx Nat.zero_lt_one (hD y (.tail _ (.head _))) s
    refine run_error (wp_seq (Q := fun _ _ => False) (wp_seq hsearch ?_) ?_)
    all_goals exact fun _ _ hfalse => hfalse.elim

theorem sortedMapBy_refused (h : Refuses D comp) {args : List (Value × Value)} (hD : ∀ x ∈ args, D x.1)
    (s : σ) :
    if args.length ≤ 1 then builtinSortedMapBy comp args s = .ok args s
    else ∃ err s', builtinSortedMapBy comp args s = .error (.error err) s' := by
  have hone : ∀ x : Value × Value, assocWith comp [] x.1 x.2 s = .ok [x] s := fun x => by
    rw [assocWith, binarySearch]
    rfl
  match args, hD with
  | [], _ => exact rfl
  | [x], _ => exact run_bind (hone x)
  | x :: y :: rest, hD =>
    rw [if_neg (by simp), builtinSortedMapBy, foldlM_cons, run_bind (hone x), foldlM_cons]
    have hx : ∀ z ∈ [x.1], D z := forall_mem_singleton.mpr (hD x (.head _))
    have hsearch := wp_search_refused h hx Nat.zero_lt_one (hD y (.tail _ (.head _))) s
    refine run_error (wp_seq (Q := fun _ _ => False) (wp_seq hsearch ?_) ?_)
    all_goals exact fun _ _ hfalse => hfalse.elim

end Refused

/-! ## The laws -/

/-- The values kept are values put in, one of each class. -/
def OnePerClass (lt : Value → Value → Bool) (inputs kept : List Value) : Prop :=
  (∀ x ∈ kept, x ∈ inputs) ∧ ∀ x ∈ inputs, (kept.filter (tied lt x)).length = 1

/-- Equivalent values stand in the list as they stand in its reverse. -/
def SameReversed (lt : Value → Value → Bool) (items : List Value) : Prop :=
  ∀ x, (items.filter (tied lt x)).reverse = items.filter (tied lt x)

/-- No two values are equivalent. -/
def NoTies (lt : Value → Value → Bool) (inputs : List Value) : Prop :=
  ∀ x ∈ inputs, (inputs.filter (tied lt x)).length = 1

section Main

variable {lt : Value → Value → Bool}

variable {kind : ComparatorKind}

/-- Of elements in strictly increasing order at most one is in a class. -/
theorem filter_tied_length_le (hlt : Weak lt) {kept : List Value}
    (h : kept.Pairwise fun a b => lt a b = true) (x : Value) :
    (kept.filter (tied lt x)).length ≤ 1 := by
  have hties : ∀ z ∈ kept.filter (tied lt x), tied lt x z = true := fun z hz => (mem_filter.mp hz).2
  have hless := h.filter (tied lt x)
  match kept.filter (tied lt x), hties, hless with
  | [], _, _ => exact Nat.zero_le 1
  | [_], _, _ => exact le_rfl
  | a :: b :: rest, hties, hless =>
    -- two of one class are not less than each other
    have hab : lt a b = true := rel_of_pairwise_cons hless (.head _)
    have hxa := hties a (.head _)
    have hxb := hties b (.tail _ (.head _))
    rw [(tied_iff.mp (hlt.tied_trans ((tied_comm a x).trans hxa) hxb)).1] at hab
    cases hab

theorem Keeps.onePerClass_iff (hlt : Weak lt) {inputs kept : List Value}
    (h : Keeps lt kind inputs kept) :
    OnePerClass lt inputs kept ↔ kind = .comparison ∨ NoTies lt inputs := by
  cases kind with
  | comparison =>
    refine iff_of_true ⟨h.mem, fun x hx => ?_⟩ (.inl rfl)
    obtain ⟨hpairwise, -, hclass⟩ := h
    obtain ⟨y, hy, hxy⟩ := hclass x hx
    have hmem : y ∈ kept.filter (tied lt x) := mem_filter.mpr ⟨hy, hxy⟩
    exact le_antisymm (filter_tied_length_le hlt hpairwise x) (length_pos_of_mem hmem)
  | predicate =>
    have hcount : ∀ x, (kept.filter (tied lt x)).length = (inputs.filter (tied lt x)).length :=
      fun x => (h.2.filter _).length_eq
    constructor
    · intro hone
      exact .inr fun x hx => (hcount x).symm.trans (hone.2 x hx)
    · rintro (hkind | hties)
      · cases hkind
      · exact ⟨h.mem, fun x hx => (hcount x).trans (hties x hx)⟩

theorem stable_iff {items ys : List Value} (h : StablySorts lt (kind.input items) ys) :
    StablySorts lt items ys ↔ kind = .comparison ∨ SameReversed lt items := by
  cases kind with
  | comparison => exact iff_of_true h (.inl rfl)
  | predicate =>
    have hreverse : ∀ x, ys.filter (tied lt x) = (items.filter (tied lt x)).reverse := by
      intro x
      rw [h.stable x, ComparatorKind.input, filter_reverse]
    constructor
    · intro hstable
      exact .inr fun x => (hreverse x).symm.trans (hstable.stable x)
    · rintro (hkind | hsame)
      · cases hkind
      · exact ⟨h.perm.trans items.reverse_perm, h.sorted, fun x => (hreverse x).trans (hsame x)⟩

end Main

/-- The order of 64-bit integers by their value, with everything else next to `0`. -/
def rank : Value → Int
  | .long n => n.toInt
  | _ => 0

def rankLess (a b : Value) : Bool := decide (rank a < rank b)

theorem rankLess_weak : Weak rankLess where
  irrefl a h := absurd (of_decide_eq_true h) (lt_irrefl _)
  trans a b c hab hbc := decide_eq_true ((of_decide_eq_true hab).trans (of_decide_eq_true hbc))
  incomp_trans a b c := by
    simp only [rankLess, decide_eq_true_eq]
    omega

/-- A comparison of 64-bit integers. -/
def compareRanks (a b : Value) : EStateM Raised Unit Value :=
  pure (.long (if rankLess a b then -1 else if rankLess b a then 1 else 0))

theorem compareRanks_answers :
    Answers integerTower rankLess (fun _ => True) .comparison (some compareRanks) := by
  intro a b _ _ s
  refine ⟨?_, rfl⟩
  rw [orderOf]
  cases rankLess a b <;> cases rankLess b a <;> rfl

theorem mergeSort_two {ε : Type} (compare : α → α → EStateM ε σ Ordering) (a b : α) :
    mergeSort compare [a, b] =
      compare a b >>= fun ord => pure (if ord != .gt then [a, b] else [b, a]) := by
  have hone : ∀ x : α, mergeSort compare [x] = pure [x] := fun x => by
    rw [mergeSort]
    rfl
  have hmid : [a, b].length / 2 = 1 := by simp
  rw [mergeSort, if_neg (show ¬ [a, b].length ≤ 1 by simp)]
  rw [hmid]
  show (mergeSort compare [a] >>= fun left => mergeSort compare [b] >>= mergeLoop compare left) = _
  have hleft : mergeLoop compare [a] [] = pure [a] := by
    rw [mergeLoop]
    exact cons_ne_nil a []
  rw [hone, hone, pure_bind, pure_bind, mergeLoop, mergeLoop, hleft]
  grind

/-- `<` as a comparator. -/
def lessThan (a b : Value) : EStateM Raised Unit Value := liftOutcome (builtinLt integerTower [a, b])

end Clojurust.Builtins
