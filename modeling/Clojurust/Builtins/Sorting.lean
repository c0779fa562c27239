import Clojurust.Lib.StableSort
import Clojurust.Lib.Traversal
import Clojurust.Builtins.Compare

/-!
# Sorting

`sort` and `sort-by` with a comparator of the program (`builtin_sort`, `merge_sort`, `builtin_sort_by` of
`crates/cljrs-builtins/src/builtins.rs`). Comparators and key functions run in the world `σ` of the
program, which they may change.

* `valueToSeq` — the items of a collection;
* `valueCompareResult`, `invokeCompare` — comparing with `compare`, and with a comparator;
* `mergeSort`, `builtinSort`, `builtinSortBy`.

A comparator is a three-way comparison or a predicate (`Answers`):

* `wp_builtinSort` — with a comparison the items are sorted stably, with a predicate the items in reverse
  are;
* `wp_builtinSortBy` — by keys the items are sorted stably with both;
* `Seqable` — what can be sorted; `Refuses` — comparators whose answers are not understood;
* `Reports` — a computation that fails with the failure of a comparator, and does not panic.

Left out are arrays and the collections of Java, roots of the garbage collector, and the arguments of
`sort` and `sort-by` that the arity check refuses.
-/

namespace Clojurust.Builtins

open StateExcept StableSort OpenRecursion Traversal List

/-! ## Collections -/

def consFromIter (items : List Value) : Value := items.foldr Value.cons .nil

def mapEntry (entry : Value × Value) : Value := .vector [entry.1, entry.2]

section Items

-- the error that the thunk of a lazy seq ended with, by the cell of the seq
variable (lazyError : Nat → Option String)

/-- What a `ValueIter` yields, or the error it ends with. -/
def iterItems : Value → Outcome (List Value)
  | .withMeta inner _ => iterItems inner
  | .lazySeq cell realized =>
    match lazyError cell with
    | some message => other message
    | none => iterItems realized
  | .cons head tail => do return head :: (← iterItems tail)
  | .list items | .vector items => .ok items
  | .set s => .ok s.iter
  | .map m => .ok (m.iter.map mapEntry)
  | .str s => .ok (s.toList.map .char)
  | .typeInstance _ fields => .ok (fields.iter.map mapEntry)
  | _ => .ok []

/-- `value_to_seq`. A collection with metadata is none. -/
def valueToSeq (v : Value) : Outcome (List Value) :=
  match v with
  | .list _ | .map _ | .set _ | .vector _ | .cons _ _ | .lazySeq _ _ | .str _ | .typeInstance _ _ =>
    iterItems lazyError v
  | .nil => .ok []
  | v => wrongType "seqable" v

/-- No lazy seq that an iteration meets has failed. -/
def Iterable : Value → Prop
  | .withMeta inner _ => Iterable inner
  | .lazySeq cell realized => lazyError cell = none ∧ Iterable realized
  | .cons _ tail => Iterable tail
  | _ => True

/-- Nil, or a collection without metadata that is no queue. -/
def Seqable : Value → Prop
  | .cons _ tail => Iterable lazyError tail
  | .lazySeq cell realized => lazyError cell = none ∧ Iterable lazyError realized
  | .list _ | .map _ | .set _ | .vector _ | .str _ | .typeInstance _ _ | .nil => True
  | _ => False

variable {lazyError}

theorem iterItems_cases : ∀ v : Value, (Iterable lazyError v ∧ ∃ items, iterItems lazyError v = .ok items) ∨
    (¬ Iterable lazyError v ∧ ∃ e, iterItems lazyError v = .error (.error e)) := by
  intro v
  fun_induction iterItems lazyError v with
  | case1 inner _ ih => exact ih
  | case2 cell realized message hcell =>
    refine .inr ⟨fun h => ?_, _, rfl⟩
    cases hcell.symm.trans h.1
  | case3 cell realized hcell ih =>
    exact ih.imp (fun h => ⟨⟨hcell, h.1⟩, h.2⟩) fun h => ⟨fun hv => h.1 hv.2, h.2⟩
  | case4 head tail ih =>
    rcases ih with ⟨htail, items, hitems⟩ | ⟨htail, e, he⟩
    · exact .inl ⟨htail, head :: items, by rw [hitems]; rfl⟩
    · exact .inr ⟨htail, e, by rw [he]; rfl⟩
  | case5 | case6 | case7 | case8 | case9 | case10 => exact .inl ⟨trivial, _, rfl⟩
  | case11 v hmeta hlazy hcons => exact .inl ⟨by cases v <;> simp_all [Iterable], _, rfl⟩

theorem valueToSeq_cases (v : Value) :
    (Seqable lazyError v ∧ ∃ items, valueToSeq lazyError v = .ok items) ∨
      (¬ Seqable lazyError v ∧ ∃ e, valueToSeq lazyError v = .error (.error e)) := by
  have hitems := @iterItems_cases lazyError v
  cases v with
  | cons | lazySeq => exact hitems
  | list | map | set | vector | str | typeInstance | nil => exact .inl ⟨trivial, _, rfl⟩
  | _ => exact .inr ⟨id, _, rfl⟩

end Items

/-! ## Comparing -/

def Raised.IsError (e : Raised) : Prop := ∃ err, e = .error err

def Raised.IsPanic (e : Raised) : Prop := ∃ message, e = .panic message

section Compare

variable (num : Tower)

def isNumber : Value → Bool
  | .long _ | .double _ | .bigInt _ | .bigDecimal _ | .ratio _ => true
  | _ => false

/-- Item by item. -/
def iterCompare (compare : Value → Value → Outcome Ordering) :
    List Value → List Value → Outcome Ordering
  | [], [] => .ok .eq
  | [], _ :: _ => .ok .lt
  | _ :: _, [] => .ok .gt
  | x :: xs, y :: ys => do
    match (← compare x y) with
    | .eq => iterCompare compare xs ys
    | c => return c

/-- The body of `value_compare_result`. -/
def compareStep (compareItems : Value → Value → Outcome Ordering) (a b : Value) : Outcome Ordering :=
  match a, b with
  | .nil, .nil => .ok .eq
  | .nil, _ => .ok .lt
  | _, .nil => .ok .gt
  | .bool x, .bool y | .str x, .str y | .char x, .char y | .instant x, .instant y =>
    .ok (compare x y)
  | .keyword x, .keyword y | .symbol x, .symbol y => .ok (Value.cmpNsName x.ns x.name y.ns y.name)
  | .vector x, .vector y => iterCompare compareItems x y
  | a, b =>
    if isNumber a && isNumber b then numCompare num a b
    else other ("cannot compare " ++ typeName a ++ " to " ++ typeName b)

def valueCompareResult (a b : Value) : Outcome Ordering :=
  fix Value.pairSize (fun f p => compareStep num (fun x y => f (x, y)) p.1 p.2) (.ok .eq) (a, b)

end Compare

/-- What a comparator's answer says: a number by its sign, `true` for "less" and `false` for
"greater". -/
def interpretCompareResult : Value → Outcome Ordering
  | .long n => .ok (if n < 0 then .lt else if 0 < n then .gt else .eq)
  | .double x => .ok (if f64Neg x then .lt else if f64Pos x then .gt else .eq)
  | .bool true => .ok .lt
  | .bool false => .ok .gt
  | v => other ("comparator must return a number or boolean, got " ++ typeName v)

variable {σ : Type}

def liftOutcome {α : Type} : Outcome α → EStateM Raised σ α
  | .ok a => pure a
  | .error e => throw e

@[simp] theorem liftOutcome_ok {α : Type} (a : α) :
    (liftOutcome (.ok a) : EStateM Raised σ α) = pure a := rfl

/-- A function of the program with two arguments. -/
abbrev Comparator (σ : Type) := Value → Value → EStateM Raised σ Value

def invokeCompare (comp : Comparator σ) (a b : Value) : EStateM Raised σ Ordering := do
  liftOutcome (interpretCompareResult (← comp a b))

/-- Without a comparator values are compared by `compare`. -/
def compareWith (num : Tower) : Option (Comparator σ) → Value → Value → EStateM Raised σ Ordering
  | some comp, a, b => invokeCompare comp a b
  | none, a, b => liftOutcome (valueCompareResult num a b)

/-! ## Merge sort -/

section MergeSort

variable {ε α : Type} (compare : α → α → EStateM ε σ Ordering)

/-- The loops that merge `left` and `right`. -/
def mergeLoop (left right : List α) : EStateM ε σ (List α) :=
  match left, right with
  | x :: xs, y :: ys => do
    if (← compare x y) != .gt then return x :: (← mergeLoop xs (y :: ys))
    else return y :: (← mergeLoop (x :: xs) ys)
  | [], ys => return ys
  | xs, [] => return xs
termination_by left.length + right.length

def mergeSort (items : List α) : EStateM ε σ (List α) := do
  if items.length ≤ 1 then return items
  let mid := items.length / 2
  let left ← mergeSort (items.take mid)
  let right ← mergeSort (items.drop mid)
  mergeLoop compare left right
termination_by items.length
decreasing_by
  all_goals grind

end MergeSort

/-- The items of a sorted collection as a seq. -/
def sortedSeq (coll : Value) (items : List Value) : Value :=
  match coll with
  | .nil => .list []
  | _ => consFromIter items

section Sorted

variable (num : Tower) (lazyError : Nat → Option String)

def builtinSort (comp : Option (Comparator σ)) (coll : Value) : EStateM Raised σ Value := do
  let items ← liftOutcome (valueToSeq lazyError coll)
  return sortedSeq coll (← mergeSort (compareWith num comp) items)

/-- `slice::sort_by`, which by itself can fail by a panic only. -/
abbrev LibrarySort := Sorter Raised Raised.IsPanic

/-- The closure of `builtin_sort_by`: after the first error everything is equal. -/
def recordError {ι : Type} (compare : ι → ι → EStateM Raised σ Ordering) (i j : ι) :
    EStateM Raised (σ × Option ValueError) Ordering :=
  fun (s, sortError) =>
    match sortError with
    | some e => .ok .eq (s, some e)
    | none =>
      match compare i j s with
      | .ok ord s' => .ok ord (s', none)
      | .error (.error e) s' => .ok .eq (s', some e)
      | .error (.panic message) s' => .error (.panic message) (s', none)

/-- The sort of a slice, with the closure's first error as the result. -/
def sortRecorded {ι : Type} (sorter : LibrarySort) (compare : ι → ι → EStateM Raised σ Ordering)
    (indices : List ι) : EStateM Raised σ (List ι) :=
  fun s =>
    match sorter.run (fun i j => do return (← recordError compare i j) == .lt) indices (s, none) with
    | .ok sorted (s', none) => .ok sorted s'
    | .ok _ (s', some e) => .error (.error e) s'
    | .error e (s', _) => .error e s'

def builtinSortBy (sorter : LibrarySort) (keyfn : Value → EStateM Raised σ Value)
    (comp : Option (Comparator σ)) (coll : Value) : EStateM Raised σ Value := do
  let items ← liftOutcome (valueToSeq lazyError coll)
  let keys ← items.mapM keyfn
  let indices ← sortRecorded sorter
    (fun i j => compareWith num comp (keys.getD i .nil) (keys.getD j .nil)) (List.range items.length)
  return sortedSeq coll (indices.map (items.getD · .nil))

end Sorted

/-! ## The merge sort -/

section Rules

variable {ε α : Type} {compare : α → α → EStateM ε σ Ordering} {I : σ → Prop} {E : ε → σ → Prop}

variable {K : α → α → Bool → Prop}

/-- Two lists merged, when `K` is known of each choice between two heads. -/
structure Merged (K : α → α → Bool → Prop) (xs ys zs : List α) : Prop where
  perm : zs.Perm (xs ++ ys)
  eq_merge {keep : α → α → Bool} (h : ∀ a b o, K a b o → o = keep a b) : zs = xs.merge ys keep

theorem wp_mergeLoop (left right : List α) (h : ∀ a ∈ left, ∀ b ∈ right, ∀ s, I s →
      wp (compare a b) (fun ord s' => I s' ∧ K a b (ord != .gt)) E s) :
    ∀ s, I s → wp (mergeLoop compare left right) (fun zs s' => I s' ∧ Merged K left right zs) E s := by
  fun_induction mergeLoop compare left right with
  | case1 x xs y ys ihLeft ihRight =>
    intro s hs
    refine wp_seq (h x mem_cons_self y mem_cons_self s hs) ?_
    rintro ord s' ⟨hs', hK⟩
    split
    · rename_i hord
      rw [hord] at hK
      refine wp_seq (ihLeft (fun a ha b hb => h a (.tail _ ha) b hb) s' hs') ?_
      rintro zs s'' ⟨hs'', hzs⟩
      refine ⟨hs'', hzs.perm.cons x, fun h => ?_⟩
      rw [cons_merge_cons_pos _ _ _ (h x y true hK).symm, hzs.eq_merge h]
    · rename_i hord
      rw [Bool.eq_false_iff.mpr hord] at hK
      refine wp_seq (ihRight (fun a ha b hb => h a ha b (.tail _ hb)) s' hs') ?_
      rintro zs s'' ⟨hs'', hzs⟩
      refine ⟨hs'', (hzs.perm.cons y).trans perm_middle.symm, fun h => ?_⟩
      rw [cons_merge_cons_neg _ _ _ (by simp [← h x y false hK]), hzs.eq_merge h]
  | case2 | case3 => exact fun s hs => ⟨hs, by simp, by simp⟩

/-- The sort, for a relation that merging keeps. -/
theorem wp_mergeSort {R : List α → List α → Prop} (hperm : ∀ xs ys, R xs ys → ys.Perm xs)
    (hshort : ∀ xs : List α, xs.length ≤ 1 → R xs xs)
    (hmerge : ∀ xs ys us vs zs, R us xs → R vs ys → Merged K xs ys zs → R (us ++ vs) zs)
    (items : List α) (h : ∀ a ∈ items, ∀ b ∈ items, ∀ s, I s →
      wp (compare a b) (fun ord s' => I s' ∧ K a b (ord != .gt)) E s) :
    ∀ s, I s → wp (mergeSort compare items) (fun ys s' => I s' ∧ R items ys) E s := by
  fun_induction mergeSort compare items with
  | case1 items hlen => exact fun s hs => ⟨hs, hshort items hlen⟩
  | case2 items hlong mid ihLeft ihRight =>
    intro s hs
    have htake : ∀ a ∈ items.take mid, a ∈ items := fun a ha => mem_of_mem_take ha
    have hdrop : ∀ a ∈ items.drop mid, a ∈ items := fun a ha => mem_of_mem_drop ha
    refine wp_seq (ihLeft (fun a ha b hb => h a (htake a ha) b (htake b hb)) s hs) ?_
    rintro left s1 ⟨hs1, hleft⟩
    refine wp_seq (ihRight (fun a ha b hb => h a (hdrop a ha) b (hdrop b hb)) s1 hs1) ?_
    rintro right s2 ⟨hs2, hright⟩
    have hleft' : ∀ a ∈ left, a ∈ items := fun a ha => htake a ((hperm _ _ hleft).mem_iff.mp ha)
    have hright' : ∀ b ∈ right, b ∈ items := fun b hb => hdrop b ((hperm _ _ hright).mem_iff.mp hb)
    refine wp_mono (wp_mergeLoop left right
      (fun a ha b hb => h a (hleft' a ha) b (hright' b hb)) s2 hs2) ?_
    rintro ys s3 ⟨hs3, hys⟩
    have hall := hmerge left right _ _ ys hleft hright hys
    rw [take_append_drop] at hall
    exact ⟨hs3, hall⟩

theorem wp_mergeSort_perm (items : List α)
    (h : ∀ a ∈ items, ∀ b ∈ items, ∀ s, I s → wp (compare a b) (fun _ => I) E s) :
    ∀ s, I s → wp (mergeSort compare items) (fun ys s' => I s' ∧ ys.Perm items) E s := by
  refine wp_mergeSort (K := fun _ _ _ => True) (R := fun xs ys => ys.Perm xs) (fun _ _ hys => hys)
    (fun xs _ => .refl xs) ?_ items ?_
  · exact fun xs ys us vs zs hus hvs hzs => hzs.perm.trans (hus.append hvs)
  · exact fun a ha b hb s hs => wp_mono (h a ha b hb s hs) fun _ _ hs' => ⟨hs', trivial⟩

theorem wp_mergeSort_stable {lt : α → α → Bool} (hlt : Weak lt) (items : List α)
    (h : ∀ a ∈ items, ∀ b ∈ items, ∀ s, I s →
      wp (compare a b) (fun ord s' => I s' ∧ (ord != .gt) = !lt b a) E s) :
    ∀ s, I s → wp (mergeSort compare items) (fun ys s' => I s' ∧ StablySorts lt items ys) E s := by
  refine wp_mergeSort (K := fun a b o => o = !lt b a) (fun _ _ hsorts => hsorts.perm)
    (fun _ hshort => .short hshort) ?_ items h
  intro xs ys us vs zs hus hvs hzs
  rw [hzs.eq_merge fun _ _ _ h => h]
  exact hus.merge hlt hvs

theorem mergeSort_short {items : List α} (h : items.length ≤ 1) : mergeSort compare items = pure items := by
  rw [mergeSort, if_pos h]

/-- Two elements are compared: what every comparison leaves behind is left behind. -/
theorem wp_mergeSort_asks {P : σ → Prop} {items : List α} (hlen : 2 ≤ items.length)
    (h : ∀ a ∈ items, ∀ b ∈ items, ∀ s, wp (compare a b) (fun _ => P) E s) (s : σ) :
    wp (mergeSort compare items) (fun _ => P) E s := by
  have htake : ∀ a ∈ items.take (items.length / 2), a ∈ items := fun a ha => mem_of_mem_take ha
  have hdrop : ∀ a ∈ items.drop (items.length / 2), a ∈ items := fun a ha => mem_of_mem_drop ha
  rw [mergeSort, if_neg (by omega)]
  refine wp_seq (wp_mergeSort_perm (I := fun _ => True) _ (fun a ha b hb s _ =>
    wp_mono (h a (htake a ha) b (htake b hb) s) fun _ _ _ => trivial) s trivial) ?_
  rintro left s1 ⟨-, hleft⟩
  refine wp_seq (wp_mergeSort_perm (I := fun _ => True) _ (fun a ha b hb s _ =>
    wp_mono (h a (hdrop a ha) b (hdrop b hb) s) fun _ _ _ => trivial) s1 trivial) ?_
  rintro right s2 ⟨-, hright⟩
  have hall : ∀ a ∈ left, ∀ b ∈ right, ∀ s, wp (compare a b) (fun _ => P) E s :=
    fun a ha b hb => h a (htake a (hleft.mem_iff.mp ha)) b (hdrop b (hright.mem_iff.mp hb))
  match left, right with
  | [], _ | _ :: _, [] =>
    have hlengths := And.intro hleft.length_eq hright.length_eq
    simp only [length_take, length_drop, length_nil, length_cons] at hlengths
    omega
  | x :: xs, y :: ys =>
    have hrest : ∀ {us vs : List α}, (∀ a ∈ us, a ∈ x :: xs) → (∀ b ∈ vs, b ∈ y :: ys) → ∀ s, P s →
        wp (mergeLoop compare us vs) (fun _ => P) E s := by
      intro us vs hus hvs s hs
      refine wp_mono (wp_mergeLoop (K := fun _ _ _ => True) us vs (fun a ha b hb s _ => ?_) s hs)
        fun _ _ hzs => hzs.1
      exact wp_mono (hall a (hus a ha) b (hvs b hb) s) fun _ _ hs' => ⟨hs', trivial⟩
    rw [mergeLoop]
    refine wp_seq (hall x (.head _) y (.head _) s2) fun ord s3 hs3 => ?_
    split
    · exact wp_seq (hrest (fun _ ha => .tail _ ha) (fun _ hb => hb) s3 hs3) fun _ _ hs4 => hs4
    · exact wp_seq (hrest (fun _ ha => ha) (fun _ hb => .tail _ hb) s3 hs3) fun _ _ hs4 => hs4

end Rules

/-- A merge sort that asks the question of the library. -/
def mergeSorter (ε : Type) (aborts : ε → Prop) : Sorter ε aborts where
  run isLess items := mergeSort (fun a b => do return if (← isLess b a) then .gt else .lt) items
  sorts := by
    intro α τ lt isLess xs I hlt h t ht
    refine wp_mergeSort_stable hlt xs ?_ t ht
    intro a ha b hb t ht
    refine wp_seq (h b hb a ha t ht) ?_
    rintro o t' ⟨ht', rfl⟩
    refine ⟨ht', ?_⟩
    cases lt b a <;> rfl
  keeps := by
    intro α τ isLess xs I E h t ht
    refine wp_weaken (E := E) (wp_mergeSort_perm xs ?_ t ht) (fun _ _ hys => hys.1) fun _ _ he => .inl he
    exact fun a ha b hb t ht => wp_seq (h b hb a ha t ht) fun _ _ ht' => ht'
  short _ := mergeSort_short
  asks := by
    intro α τ isLess xs P h hlen t
    refine wp_mergeSort_asks hlen ?_ t
    exact fun a ha b hb t => wp_seq (h b hb a ha t) fun _ _ ht' => ht'

/-! ## Comparators -/

/-- The answer of a three-way comparison. -/
def orderOf (lt : Value → Value → Bool) (a b : Value) : Ordering :=
  if lt a b then .lt else if lt b a then .gt else .eq

inductive ComparatorKind where
  | comparison
  | predicate
  deriving DecidableEq

namespace ComparatorKind

/-- What a comparator says about two values in the order. -/
def answer (lt : Value → Value → Bool) : ComparatorKind → Value → Value → Ordering
  | comparison, a, b => orderOf lt a b
  | predicate, a, b => if lt a b then .lt else .gt

/-- The list that a sort with such a comparator sorts stably. -/
def input : ComparatorKind → List Value → List Value
  | comparison, items => items
  | predicate, items => items.reverse

variable {lt : Value → Value → Bool}

theorem answer_beq_lt (kind : ComparatorKind) (a b : Value) : (kind.answer lt a b == .lt) = lt a b := by
  cases kind with
  | comparison =>
    rw [answer, orderOf]
    cases lt a b <;> cases lt b a <;> rfl
  | predicate =>
    rw [answer]
    cases lt a b <;> rfl

theorem comparison_answer_bne_gt (h : Weak lt) (a b : Value) :
    (comparison.answer lt a b != .gt) = !lt b a := by
  rw [answer, orderOf]
  cases hab : lt a b with
  | true => rw [h.asymm hab]; rfl
  | false => cases lt b a <;> rfl

theorem predicate_answer_bne_gt (a b : Value) : (predicate.answer lt a b != .gt) = lt a b := by
  rw [answer]
  cases lt a b <;> rfl

end ComparatorKind

/-- How a number compares with zero. -/
def signOf : Value → Outcome Ordering
  | .long n => .ok (compare n.toInt 0)
  | .double f => .ok (if f64Pos f then .gt else if f64Neg f then .lt else .eq)
  | .ratio r => .ok (compare r.num 0)
  | .bigInt n => .ok (compare n 0)
  | .bigDecimal d => .ok (compare d.intVal 0)
  | v => wrongType "number" v

/-- The numbers that are accepted as the answer of a comparator. -/
def isAccepted : Value → Bool
  | .long _ | .double _ => true
  | _ => false

/-- The comparator answers like the order on the values of `D`, as a comparison by the sign of a
number. -/
def Answers (num : Tower) (lt : Value → Value → Bool) (D : Value → Prop) :
    ComparatorKind → Option (Comparator σ) → Prop
  | .comparison, some comp => ∀ a b, D a → D b → ∀ s, wp (comp a b)
    (fun v _ => signOf v = .ok (orderOf lt a b) ∧ isAccepted v = true) (fun _ _ => False) s
  | .predicate, some comp => ∀ a b, D a → D b → ∀ s, wp (comp a b)
    (fun v _ => v = .bool (lt a b)) (fun _ _ => False) s
  | .comparison, none => ∀ a b, D a → D b → valueCompareResult num a b = .ok (orderOf lt a b)
  | .predicate, none => False

theorem interpret_accepted {v : Value} (h : isAccepted v = true) :
    interpretCompareResult v = signOf v := by
  cases v with
  | long n =>
    rw [interpretCompareResult, signOf]
    have hneg : n < 0 ↔ n.toInt < 0 := Int64.lt_iff_toInt_lt
    have hpos : 0 < n ↔ 0 < n.toInt := Int64.lt_iff_toInt_lt
    rcases lt_trichotomy n.toInt 0 with hn | hn | hn
    · rw [if_pos (hneg.mpr hn), compare_lt_iff_lt.mpr hn]
    · grind
    · rw [if_neg (fun h => absurd (hneg.mp h) (by omega)), if_pos (hpos.mpr hn),
        compare_gt_iff_gt.mpr hn]
  | double x =>
    rw [interpretCompareResult, signOf, f64Neg, f64Pos]
    grind
  | _ => cases h

section Laws

variable {num : Tower} {lazyError : Nat → Option String} {lt : Value → Value → Bool} {D : Value → Prop}
  {kind : ComparatorKind} {comp : Option (Comparator σ)}

theorem Answers.wp_compareWith (h : Answers num lt D kind comp) {a b : Value} (ha : D a) (hb : D b)
    (s : σ) : wp (compareWith num comp a b) (fun ord _ => ord = kind.answer lt a b)
      (fun _ _ => False) s := by
  cases kind with
  | comparison =>
    cases comp with
    | some =>
      refine wp_seq (h a b ha hb s) ?_
      rintro v s' ⟨hsign, haccepted⟩
      rw [interpret_accepted haccepted, hsign]
      exact rfl
    | none =>
      rw [compareWith, h a b ha hb]
      exact rfl
  | predicate =>
    cases comp with
    | some =>
      refine wp_seq (h a b ha hb s) ?_
      rintro v s' rfl
      cases hlt : lt a b with
      | true => exact (if_pos hlt).symm
      | false => exact (if_neg (Bool.eq_false_iff.mp hlt)).symm
    | none => exact h.elim

variable {items : List Value}

theorem wp_builtinSort (hlt : Weak lt) (h : Answers num lt D kind comp) {coll : Value}
    (hitems : valueToSeq lazyError coll = .ok items) (hD : ∀ x ∈ items, D x) (s : σ) :
    wp (builtinSort num lazyError comp coll)
      (fun v _ => ∃ ys, v = sortedSeq coll ys ∧ StablySorts lt (kind.input items) ys)
      (fun _ _ => False) s := by
  rw [builtinSort, hitems, liftOutcome_ok, pure_bind]
  have hsorts : wp (mergeSort (compareWith num comp) items)
      (fun ys _ => True ∧ StablySorts lt (kind.input items) ys) (fun _ _ => False) s := by
    cases kind with
    | comparison =>
      refine wp_mergeSort_stable hlt items ?_ s trivial
      intro a ha b hb s _
      refine wp_mono (h.wp_compareWith (hD a ha) (hD b hb) s) ?_
      rintro ord s' rfl
      exact ⟨trivial, ComparatorKind.comparison_answer_bne_gt hlt a b⟩
    | predicate =>
      refine wp_mergeSort (K := fun a b o => o = lt a b)
        (R := fun xs ys => StablySorts lt xs.reverse ys) ?_ ?_ ?_ items ?_ s trivial
      · exact fun xs _ hsorts => hsorts.perm.trans xs.reverse_perm
      · intro xs hshort
        have hself : xs.reverse = xs := by
          match xs, hshort with
          | [], _ | [x], _ => rfl
        rw [hself]
        exact .short hshort
      · intro xs ys us vs zs hus hvs hzs
        -- of two equivalent heads the one on the right is taken
        rw [hzs.eq_merge fun _ _ _ h => h, merge_swap, reverse_append]
        exact hvs.merge hlt hus
      · intro a ha b hb s _
        refine wp_mono (h.wp_compareWith (hD a ha) (hD b hb) s) ?_
        rintro ord s' rfl
        exact ⟨trivial, ComparatorKind.predicate_answer_bne_gt a b⟩
  refine wp_seq hsorts ?_
  rintro ys s' ⟨-, hys⟩
  exact ⟨ys, rfl, hys⟩

theorem wp_recordError {ι : Type} {compare : ι → ι → EStateM Raised σ Ordering} {i j : ι}
    {Q : Ordering → σ → Prop} {E : Raised → σ → Prop} {s : σ} (h : wp (compare i j) Q E s) :
    wp (recordError compare i j)
      (fun o t => t.2 = none ∧ Q o t.1 ∨ ∃ e, t.2 = some e ∧ E (.error e) t.1) (fun e t => E e t.1)
      (s, none) := by
  rw [wp] at h ⊢
  rw [recordError]
  grind

theorem wp_sortRecorded (sorter : LibrarySort) {ι : Type} {less : ι → ι → Bool} (hless : Weak less)
    {compare : ι → ι → EStateM Raised σ Ordering} {answer : ι → ι → Ordering} {indices : List ι}
    (hanswer : ∀ i j, (answer i j == .lt) = less i j)
    (h : ∀ i ∈ indices, ∀ j ∈ indices, ∀ s,
      wp (compare i j) (fun o _ => o = answer i j) (fun _ _ => False) s) (s : σ) :
    wp (sortRecorded sorter compare indices) (fun sorted _ => StablySorts less indices sorted)
      (fun _ _ => False) s := by
  have hclosure : ∀ i ∈ indices, ∀ j ∈ indices, ∀ t : σ × Option ValueError, t.2 = none →
      wp (do return (← recordError compare i j) == .lt) (fun o t' => t'.2 = none ∧ o = less i j)
        (fun _ _ => False) t := by
    rintro i hi j hj ⟨s, -⟩ rfl
    refine wp_seq (wp_recordError (h i hi j hj s)) ?_
    rintro o t' (⟨ht', rfl⟩ | ⟨e, -, hfalse⟩)
    · exact ⟨ht', hanswer i j⟩
    · exact hfalse.elim
  have hrun := sorter.sorts hless hclosure (s, none) rfl
  rw [wp] at hrun ⊢
  rw [sortRecorded]
  grind

theorem map_getD_range {α : Type} (l : List α) (d : α) :
    (List.range l.length).map (l.getD · d) = l := by
  refine ext_getElem (by rw [length_map, length_range]) fun i hi hi' => ?_
  rw [getElem_map, getElem_range, getD_eq_getElem l d hi']

/-- By keys the items are sorted stably with every comparator. -/
theorem wp_builtinSortBy (sorter : LibrarySort) (hlt : Weak lt) (h : Answers num lt D kind comp)
    {coll : Value} (hitems : valueToSeq lazyError coll = .ok items)
    {keyfn : Value → EStateM Raised σ Value} {key : Value → Value}
    (hkey : ∀ x ∈ items, ∀ s, wp (keyfn x) (fun k _ => k = key x) (fun _ _ => False) s)
    (hD : ∀ x ∈ items, D (key x)) (s : σ) :
    wp (builtinSortBy num lazyError sorter keyfn comp coll)
      (fun v _ => ∃ ys, v = sortedSeq coll ys ∧
        StablySorts (fun a b => lt (key a) (key b)) items ys) (fun _ _ => False) s := by
  rw [builtinSortBy, hitems, liftOutcome_ok, pure_bind]
  refine wp_seq (wp_mapM (List.forall₂_same.mpr hkey) s) ?_
  intro keys s1 hall
  obtain rfl : keys = items.map key := by
    have heq : List.Forall₂ Eq keys (items.map key) := List.forall₂_map_right_iff.mpr hall.flip
    rwa [List.forall₂_eq_eq_eq] at heq
  -- a position stands for its item
  have hget : ∀ i ∈ List.range items.length, (items.map key).getD i .nil = key (items.getD i .nil) ∧
      items.getD i .nil ∈ items := by
    intro i hi
    have hlen : i < items.length := mem_range.mp hi
    have hlen' : i < (items.map key).length := by rwa [length_map]
    rw [getD_eq_getElem items .nil hlen, getD_eq_getElem (items.map key) .nil hlen', getElem_map]
    exact ⟨rfl, getElem_mem hlen⟩
  have hcompare : ∀ i ∈ List.range items.length, ∀ j ∈ List.range items.length, ∀ s : σ,
      wp (compareWith num comp ((items.map key).getD i .nil) ((items.map key).getD j .nil))
        (fun o _ => o = kind.answer lt (key (items.getD i .nil)) (key (items.getD j .nil)))
        (fun _ _ => False) s := by
    intro i hi j hj s
    rw [(hget i hi).1, (hget j hj).1]
    exact h.wp_compareWith (hD _ (hget i hi).2) (hD _ (hget j hj).2) s
  have hsorted := wp_sortRecorded sorter ((hlt.preimage key).preimage (items.getD · .nil))
    (fun i j => kind.answer_beq_lt (key (items.getD i .nil)) (key (items.getD j .nil))) hcompare s1
  refine wp_seq hsorted ?_
  intro sorted s2 hstable
  have hmapped := hstable.map (hlt.preimage key)
  rw [map_getD_range] at hmapped
  exact ⟨_, rfl, hmapped⟩

end Laws

/-! ## Answers that are refused -/

section Refused

/-- No answer of the comparator on the values of `D` is a 64-bit integer, a double or a truth value. -/
def Refuses (D : Value → Prop) (comp : Comparator σ) : Prop :=
  ∀ a b, D a → D b → ∀ s, wp (comp a b)
    (fun v _ => isAccepted v = false ∧ ∀ b, v ≠ .bool b) (fun _ _ => False) s

variable {num : Tower} {lazyError : Nat → Option String} {D : Value → Prop} {comp : Comparator σ}
  {items : List Value} {coll : Value}

theorem interpret_refused {v : Value} (h : isAccepted v = false) (hbool : ∀ b, v ≠ .bool b) :
    ∃ e, interpretCompareResult v = .error (.error e) := by
  cases v with
  | long | double => cases h
  | bool b => exact (hbool b rfl).elim
  | _ => exact ⟨_, rfl⟩

theorem Refuses.wp_invokeCompare (h : Refuses D comp) {a b : Value} (ha : D a) (hb : D b) (s : σ) :
    wp (invokeCompare comp a b) (fun _ _ => False) (fun e _ => e.IsError) s := by
  refine wp_seq_weaken (h a b ha hb s) ?_ fun _ _ hfalse => hfalse.elim
  rintro v s' ⟨haccepted, hbool⟩
  obtain ⟨e, he⟩ := interpret_refused haccepted hbool
  rw [he]
  exact ⟨e, rfl⟩

theorem run_error {α : Type} {x : EStateM Raised σ α} {s : σ}
    (h : wp x (fun _ _ => False) (fun e _ => e.IsError) s) : ∃ err s', x s = .error (.error err) s' := by
  cases hx : x s with
  | ok a s' => exact (wp_ok h hx).elim
  | error e s' =>
    obtain ⟨err, rfl⟩ := wp_error h hx
    exact ⟨err, s', rfl⟩

theorem sort_refused (h : Refuses D comp) (hitems : valueToSeq lazyError coll = .ok items)
    (hD : ∀ x ∈ items, D x) (s : σ) :
    if items.length ≤ 1 then builtinSort num lazyError (some comp) coll s = .ok (sortedSeq coll items) s
    else ∃ err s', builtinSort num lazyError (some comp) coll s = .error (.error err) s' := by
  rw [builtinSort, hitems, liftOutcome_ok, pure_bind]
  split
  · rename_i hlen
    rw [mergeSort_short hlen, pure_bind]
    rfl
  · refine run_error (wp_seq (wp_mergeSort_asks (P := fun _ => False) (by omega) ?_ s)
      fun _ _ hfalse => hfalse.elim)
    exact fun a ha b hb s => h.wp_invokeCompare (hD a ha) (hD b hb) s

/-- The first answer is recorded as an error and every answer is taken for a tie, so that the library
has no reason to abort. -/
theorem sortRecorded_refused (sorter : LibrarySort) {ι : Type}
    {compare : ι → ι → EStateM Raised σ Ordering} {indices : List ι}
    (h : ∀ i ∈ indices, ∀ j ∈ indices, ∀ s,
      wp (compare i j) (fun _ _ => False) (fun e _ => e.IsError) s) (s : σ) :
    if indices.length ≤ 1 then sortRecorded sorter compare indices s = .ok indices s
    else ∃ err s', sortRecorded sorter compare indices s = .error (.error err) s' := by
  have hclosure : ∀ i ∈ indices, ∀ j ∈ indices, ∀ t : σ × Option ValueError,
      wp (do return (← recordError compare i j) == .lt)
        (fun o t' => t'.2.isSome = true ∧ o = false) (fun _ _ => False) t := by
    rintro i hi j hj ⟨s, _ | e⟩
    · obtain ⟨err, s', hrun⟩ := run_error (h i hi j hj s)
      have hrecord : recordError compare i j (s, none) = .ok .eq (s', some err) := by
        simp only [recordError, hrun]
      rw [wp, run_bind hrecord]
      exact ⟨rfl, rfl⟩
    · exact ⟨rfl, rfl⟩
  split
  · rename_i hlen
    rw [sortRecorded, sorter.short _ hlen]
    rfl
  · have hweak : Weak fun _ _ : ι => false := weak_false
    have hsorts := sorter.sorts (I := fun _ => True) hweak
      (fun i hi j hj t _ => wp_mono (hclosure i hi j hj t) fun _ _ ho => ⟨trivial, ho.2⟩) (s, none) trivial
    have hasks := sorter.asks (P := fun t => t.2.isSome = true)
      (fun i hi j hj t => wp_weaken (hclosure i hi j hj t) (fun _ _ ho => ho.1) fun _ _ _ => trivial)
      (by omega) (s, none)
    obtain ⟨sorted, ⟨s', recorded⟩, hrun, -⟩ := wp_returns hsorts
    obtain ⟨err, rfl⟩ := Option.isSome_iff_exists.mp (wp_ok hasks hrun)
    refine ⟨err, s', ?_⟩
    simp only [sortRecorded, hrun]

theorem sortBy_refused (sorter : LibrarySort) (h : Refuses D comp)
    (hitems : valueToSeq lazyError coll = .ok items) {keyfn : Value → EStateM Raised σ Value}
    (hkey : ∀ x ∈ items, ∀ s, wp (keyfn x) (fun k _ => D k) (fun _ _ => False) s) (s : σ) :
    if items.length ≤ 1 then
      ∃ s', builtinSortBy num lazyError sorter keyfn (some comp) coll s = .ok (sortedSeq coll items) s'
    else ∃ err s', builtinSortBy num lazyError sorter keyfn (some comp) coll s = .error (.error err) s' := by
  rw [builtinSortBy, hitems, liftOutcome_ok, pure_bind]
  obtain ⟨keys, s1, hrun, hkeys⟩ := wp_returns (wp_mapM (List.forall₂_same.mpr hkey) s)
  have hD : ∀ i ∈ List.range items.length, D (keys.getD i .nil) := by
    intro i hi
    have hitem : i < items.length := mem_range.mp hi
    have hlen : i < keys.length := hkeys.length_eq ▸ hitem
    rw [getD_eq_getElem keys .nil hlen]
    exact (List.forall₂_iff_get.mp hkeys).2 i hitem hlen
  have hcompare : ∀ i ∈ List.range items.length, ∀ j ∈ List.range items.length, ∀ s : σ,
      wp (compareWith num (some comp) (keys.getD i .nil) (keys.getD j .nil)) (fun _ _ => False)
        (fun e _ => e.IsError) s :=
    fun i hi j hj s => h.wp_invokeCompare (hD i hi) (hD j hj) s
  have hsort := sortRecorded_refused sorter hcompare s1
  rw [length_range] at hsort
  split
  · rename_i hlen
    rw [if_pos hlen] at hsort
    refine ⟨s1, (run_bind hrun).trans ((run_bind hsort).trans ?_)⟩
    rw [map_getD_range]
    rfl
  · rename_i hlen
    rw [if_neg hlen] at hsort
    obtain ⟨err, s', hsort⟩ := hsort
    exact ⟨err, s', (run_bind hrun).trans (run_bind_error hsort)⟩

end Refused

/-! ## Failing comparators -/

section Failing

variable {num : Tower} {lazyError : Nat → Option String} {α : Type}

/-- Errors of comparing by `compare` are no panics. -/
theorem compareStep_error {compareItems : Value → Value → Outcome Ordering}
    (hitems : ∀ x y e, compareItems x y = .error e → e.IsError) {a b : Value} {e : Raised}
    (h : compareStep num compareItems a b = .error e) : e.IsError := by
  have hiter : ∀ xs ys, iterCompare compareItems xs ys = .error e → e.IsError := by
    intro xs ys h
    fun_induction iterCompare compareItems xs ys with
    | case1 | case2 | case3 => cases h
    | case4 x xs y ys ih =>
      cases hxy : compareItems x y with
      | error e' =>
        rw [hxy] at h
        cases h
        exact hitems x y e hxy
      | ok ord =>
        rw [hxy] at h
        cases ord with
        | eq => exact ih h
        | lt | gt => cases h
  unfold compareStep at h
  split at h
  all_goals try cases h
  · exact hiter _ _ h
  · split at h
    · exact numCompare_error h
    · cases h
      exact ⟨_, rfl⟩

theorem valueCompareResult_error {a b : Value} {e : Raised} (h : valueCompareResult num a b = .error e) :
    e.IsError := by
  have hunfolded : ∀ n p e, unfolded (fun f p => compareStep num (fun x y => f (x, y)) p.1 p.2)
      (.ok .eq) n p = .error e → e.IsError := by
    intro n
    induction n with
    | zero => exact fun p e h => nomatch h
    | succ n ih => exact fun p e h => compareStep_error (fun x y e => ih (x, y) e) h
  exact hunfolded _ _ e h

/-- A call that leaves behind how it failed. -/
def watched (x : EStateM Raised σ α) : EStateM Raised (σ × Option Raised) α :=
  fun (s, failure) =>
    match x s with
    | .ok a s' => .ok a (s', failure)
    | .error e s' => .error e (s', some e)

/-- The failure of a call, or an error while no call has failed. -/
def Reported (e : Raised) (t : σ × Option Raised) : Prop := t.2 = some e ∨ t.2 = none ∧ e.IsError

/-- It returns only if no call has failed, and its errors are reported. -/
def Reports (x : EStateM Raised (σ × Option Raised) α) : Prop :=
  ∀ t, t.2 = none → wp x (fun _ t' => t'.2 = none) Reported t

theorem reports_watched (x : EStateM Raised σ α) : Reports (watched x) := by
  rintro ⟨s, -⟩ rfl
  cases hrun : x s with
  | ok a s' =>
    have hstep : watched x (s, none) = .ok a (s', none) := by simp only [watched, hrun]
    rw [wp, hstep]
  | error e s' =>
    have hstep : watched x (s, none) = .error e (s', some e) := by simp only [watched, hrun]
    rw [wp, hstep]
    exact .inl rfl

theorem reports_liftOutcome {x : Outcome α} (h : ∀ e, x = .error e → e.IsError) :
    Reports (σ := σ) (liftOutcome x) := by
  intro t ht
  cases x with
  | ok a => exact ht
  | error e => exact .inr ⟨ht, h e rfl⟩

theorem valueToSeq_error {coll : Value} {e : Raised} (h : valueToSeq lazyError coll = .error e) :
    e.IsError := by
  rcases valueToSeq_cases coll with ⟨-, items, hitems⟩ | ⟨-, err, herr⟩
  · cases h.symm.trans hitems
  · cases h.symm.trans herr
    exact ⟨err, rfl⟩

theorem reports_compareWith (comp : Option (Comparator σ)) (a b : Value) :
    Reports (compareWith num (comp.map fun c a b => watched (c a b)) a b) := by
  cases comp with
  | none => exact reports_liftOutcome fun e => valueCompareResult_error
  | some comp =>
    refine fun t ht => wp_seq (reports_watched (comp a b) t ht) fun v => reports_liftOutcome ?_
    intro e he
    cases v with
    | long | double => cases he
    | bool b => cases b <;> cases he
    | _ => cases he; exact ⟨_, rfl⟩

theorem wp_builtinSort_watched (comp : Option (Comparator σ)) (coll : Value) (s : σ) :
    wp (builtinSort num lazyError (comp.map fun c a b => watched (c a b)) coll)
      (fun _ t => t.2 = none) Reported (s, none) := by
  refine wp_seq (reports_liftOutcome (fun e => valueToSeq_error) (s, none) rfl) ?_
  intro items t ht
  have hsort := wp_mergeSort_perm items (fun a _ b _ => @reports_compareWith σ num comp a b) t ht
  exact wp_seq hsort fun _ _ hys => hys.1

/-- After an error the library may abort. -/
theorem wp_sortRecorded_watched (sorter : LibrarySort) {ι : Type}
    {compare : ι → ι → EStateM Raised (σ × Option Raised) Ordering} (indices : List ι)
    (h : ∀ i j, Reports (compare i j)) {t : σ × Option Raised} (ht : t.2 = none) :
    wp (sortRecorded sorter compare indices) (fun _ t' => t'.2 = none)
      (fun e t' => Reported e t' ∨ e.IsPanic) t := by
  have hclosure : ∀ i ∈ indices, ∀ j ∈ indices, ∀ t : (σ × Option Raised) × Option ValueError,
      (t.2 = none → t.1.2 = none) ∧ (∀ e, t.2 = some e → Reported (.error e) t.1) →
      wp (do return (← recordError compare i j) == .lt)
        (fun _ t' => (t'.2 = none → t'.1.2 = none) ∧ ∀ e, t'.2 = some e → Reported (.error e) t'.1)
        (fun e t' => Reported e t'.1) t := by
    rintro i - j - ⟨s, _ | e⟩ ⟨hnone, hsome⟩
    · refine wp_seq (wp_recordError (h i j s (hnone rfl))) ?_
      rintro o ⟨t1, recorded⟩ (⟨rfl, hcalm⟩ | ⟨e, rfl, hreported⟩)
      · exact ⟨fun _ => hcalm, fun e he => nomatch he⟩
      · exact ⟨fun hnone => (nomatch hnone), fun e' he' => Option.some.inj he' ▸ hreported⟩
    · exact ⟨hnone, hsome⟩
  have hrun := sorter.keeps hclosure (t, none) ⟨fun _ => ht, fun e he => (nomatch he)⟩
  rw [wp] at hrun ⊢
  rw [sortRecorded]
  cases hsort : sorter.run (fun i j => do return (← recordError compare i j) == .lt) indices (t, none) with
  | ok sorted t' =>
    rw [hsort] at hrun
    obtain ⟨t', _ | e⟩ := t'
    · exact hrun.1 rfl
    · exact .inl (hrun.2 e rfl)
  | error e t' =>
    rw [hsort] at hrun
    exact hrun

theorem wp_builtinSortBy_watched (sorter : LibrarySort) (keyfn : Value → EStateM Raised σ Value)
    (comp : Option (Comparator σ)) (coll : Value) (s : σ) :
    wp (builtinSortBy num lazyError sorter (fun x => watched (keyfn x))
        (comp.map fun c a b => watched (c a b)) coll)
      (fun _ t => t.2 = none) (fun e t => Reported e t ∨ e.IsPanic) (s, none) := by
  refine wp_seq_weaken (reports_liftOutcome (fun e => valueToSeq_error) (s, none) rfl) ?_
    fun _ _ he => .inl he
  intro items t ht
  have hkeys : wp (items.mapM fun x => watched (keyfn x))
      (fun keys t' => t'.2 = none ∧ List.Forall₂ (fun _ _ => True) items keys) Reported t :=
    wp_mapM_invariant (fun x _ t ht => wp_mono (reports_watched (keyfn x) t ht)
      fun _ _ ht' => ⟨ht', trivial⟩) t ht
  refine wp_seq_weaken hkeys ?_ fun _ _ he => .inl he
  rintro keys t1 ⟨ht1, -⟩
  exact wp_seq (wp_sortRecorded_watched sorter _ (fun i j => reports_compareWith comp _ _) ht1)
    fun _ _ ht2 => ht2

end Failing

end Clojurust.Builtins
