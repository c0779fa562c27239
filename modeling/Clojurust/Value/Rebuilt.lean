import Clojurust.Value.Order

/-!
# Values built anew from their parts

Readers and decoders build a value anew, part by part: scalars as they are, sequences item by item,
maps and sets entry by entry in the order of iteration.

* `Searchable`, `find_of_searchable` — a tree whose entries a probe runs through in order;
* `Rebuilt` — a value and one that is built anew from it; `Twin` — the value itself or such a one;
* `ShapeTwin`, `Twin.shape` — the shapes of twins.
-/

namespace Clojurust

open Matching

/-! ## Searching a sorted list -/

section Searchable

variable {α : Type}

/-- The probe comes after the entries up to some place, and before those behind it. -/
def Searchable (probe : α → Ordering) (l : List α) : Prop :=
  l.Pairwise (fun x y => probe x ≠ .gt → probe y = .lt)

theorem find_of_searchable {probe : α → Ordering} : ∀ {t : Tree α}, Searchable probe t.toList →
    t.find probe = t.toList.find? (fun x => probe x == .eq)
  | .leaf, _ => rfl
  | .node left entry right, h => by
    rw [Tree.toList, Searchable, List.pairwise_append, List.pairwise_cons] at h
    obtain ⟨hleft, ⟨hentry, hright⟩, hcross⟩ := h
    have ihleft := find_of_searchable hleft
    have ihright := find_of_searchable hright
    rw [Tree.find, Tree.toList, List.find?_append, List.find?_cons]
    cases hprobe : probe entry with
    | lt =>
      -- everything behind the entry is behind the probe
      grind
    | eq | gt => grind

end Searchable

/-! ## The relation -/

section Kept

variable {κ ν : Type} (ops : KeyOps κ)

/-- An array map, or a hash map whose index has the keys of its entries. -/
def MapValue.Unsorted : MapValue κ ν → Prop
  | array _ => True
  | hash m => ops.Indexes m.index (m.order.map (fun entry => (entry.1, entry.2.1))) ∧
      ∀ e ∈ m.index, e.1 ∈ m.order.map (fun entry => entry.2.1)
  | _ => False

def SetValue.Unsorted : SetValue κ → Prop
  | hash s => ops.Indexes s.index s.order ∧ ∀ e ∈ s.index, e.1 ∈ s.order.map Prod.snd
  | _ => False

/-- The order finds a key of `K` among sorted keys where it is. -/
def KeyOps.Orders (K : Set κ) (keys : List κ) : Prop :=
  ∀ k ∈ K, Searchable (ops.cmp k) keys ∧ ∀ x ∈ keys, (ops.cmp k x == .eq) = ops.eq x k

variable (K : Set κ)

/-- A map built anew from `m`: unsorted, or sorted like it. -/
def MapValue.Kept (m m' : MapValue κ ν) : Prop :=
  m'.Unsorted ops ∨ ∃ t t', m = sorted t ∧ m' = sorted t' ∧ ops.Orders K (t.toList.map Prod.fst)

def SetValue.Kept (s s' : SetValue κ) : Prop :=
  s'.Unsorted ops ∨ ∃ t t', s = sorted t ∧ s' = sorted t' ∧ ops.Orders K t.toList

end Kept

namespace Value

/-- A value without parts. -/
def isScalar : Value → Bool
  | nil | bool _ | long _ | double _ | bigInt _ | bigDecimal _ | ratio _ | char _ | str _ | uuid _
  | instant _ | symbol _ | keyword _ => true
  | _ => false

section

variable (num : Numerics) (K : Set Value)

/-- The second value is built anew from the first: lazy seqs are realised, and the keys of sorted
collections are searched with those in `K`. -/
inductive Rebuilt : Value → Value → Prop
  | scalar {v : Value} (h : v.isScalar = true) : Rebuilt v v
  | list {items items' : List Value} (h : List.Forall₂ (Rebuilt) items items') :
      Rebuilt (list items) (list items')
  | vector {items items' : List Value} (h : List.Forall₂ (Rebuilt) items items') :
      Rebuilt (vector items) (vector items')
  | queue {front rear front' rear' : List Value}
      (h : List.Forall₂ (Rebuilt) (front ++ rear) (front' ++ rear')) :
      Rebuilt (queue front rear) (queue front' rear')
  | cons {head tail head' tail' : Value} (hhead : Rebuilt head head')
      (htail : Rebuilt tail tail') : Rebuilt (cons head tail) (cons head' tail')
  | lazySeq {cell : Nat} {realized v : Value} (h : Rebuilt realized v) :
      Rebuilt (lazySeq cell realized) v
  | map {m m' : MapValue Value Value}
      (hkeys : List.Forall₂ (Rebuilt) (m.iter.map Prod.fst) (m'.iter.map Prod.fst))
      (hvalues : List.Forall₂ (Rebuilt) (m.iter.map Prod.snd) (m'.iter.map Prod.snd))
      (hkept : MapValue.Kept (keyOps num) K m m') : Rebuilt (map m) (map m')
  | set {s s' : SetValue Value} (h : List.Forall₂ (Rebuilt) s.iter s'.iter)
      (hkept : SetValue.Kept (keyOps num) K s s') : Rebuilt (set s) (set s')
  | typeInstance {tag : String} {m m' : MapValue Value Value}
      (hkeys : List.Forall₂ (Rebuilt) (m.iter.map Prod.fst) (m'.iter.map Prod.fst))
      (hvalues : List.Forall₂ (Rebuilt) (m.iter.map Prod.snd) (m'.iter.map Prod.snd))
      (hkept : MapValue.Kept (keyOps num) K m m') :
      Rebuilt (typeInstance tag m) (typeInstance tag m')
  | withMeta {inner metadata inner' metadata' : Value} (h : Rebuilt inner inner')
      (hmeta : Rebuilt metadata metadata') :
      Rebuilt (withMeta inner metadata) (withMeta inner' metadata')
  | reduced {inner inner' : Value} (h : Rebuilt inner inner') :
      Rebuilt (reduced inner) (reduced inner')

end

/-- The value itself, or one built anew from it. -/
def Twin (num : Numerics) (K : Set Value) (x x' : Value) : Prop := x' = x ∨ Rebuilt num K x x'

section Wrapping

variable {num : Numerics} {K : Set Value}

/-- No lazy seq is around the core. -/
def isSettled : Value → Bool
  | withMeta inner _ | reduced inner => inner.isSettled
  | lazySeq _ _ => false
  | _ => true

/-- Around the same cores a lazy seq is compared like what it realises to, unless it realises to `nil`
and the other value is an empty sequence. -/
theorem eq_core_of_isSettled {a b : Value}
    (ha : a.isSettled = false → a.core = nil → b.core.isBlank = false)
    (hb : b.isSettled = false → b.core = nil → a.core.isBlank = false)
    (hone : a.isSettled = true ∨ b.isSettled = true) :
    a.eq num b = eqPlain num (eq num) a.core b.core := by
  induction hn : a.size + b.size using Nat.strong_induction_on generalizing a b with
  | _ n ih =>
    rw [eq_eq]
    unfold eqStep
    split
    iterate 4 exact ih _ (by simp only [size] at hn; omega) ha hb hone rfl
    · rename_i cell realized _ _
      have hsettled : b.isSettled = true := hone.resolve_left (by simp [isSettled])
      have hcell : sameCell (lazySeq cell realized) b = false := by
        cases b <;> first | rfl | cases hsettled
      have hcore : b.core = b := core_of_isPlain (by cases b <;> simp_all [isPlain, isSettled])
      rw [hcell, if_neg Bool.false_ne_true]
      split
      · rename_i hnil
        rw [Bool.and_eq_true, eq_nil_iff] at hnil
        have hblank := ha rfl hnil.1
        rw [hcore] at hblank
        rw [isEmpty_eq_eqPlain_nil hnil.2 (by simp [hblank])]
        exact congrArg (eqPlain num _ · _) hnil.1.symm
      · exact ih _ (by simp only [size] at hn; omega) (fun _ h => ha rfl h) (by simp [hsettled])
          (.inr hsettled) rfl
    · have hsettled : a.isSettled = true := hone.resolve_right (by simp [isSettled])
      have hcore : a.core = a := core_of_isPlain (by cases a <;> simp_all [isPlain, isSettled])
      split
      · rename_i hnil
        rw [Bool.and_eq_true, eq_nil_iff] at hnil
        have hblank := hb rfl hnil.1
        rw [hcore] at hblank
        rw [isEmpty_eq_eqPlain_nil hnil.2 (by simp [hblank]), ← eqPlain_nil_comm]
        exact congrArg (eqPlain num _ _) hnil.1.symm
      · exact ih _ (by simp only [size] at hn; omega) (by simp [hsettled]) (fun _ h => hb rfl h)
          (.inl hsettled) rfl
    · rw [core_of_isPlain (isPlain_of_ne ‹_› ‹_› ‹_›), core_of_isPlain (isPlain_of_ne ‹_› ‹_› ‹_›)]

theorem Rebuilt.isSettled : ∀ {x x' : Value}, Rebuilt num K x x' → x'.isSettled = true
  | v, _, .scalar h => by cases v <;> first | rfl | cases h
  | _, _, .list _ | _, _, .vector _ | _, _, .queue _ | _, _, .cons _ _
  | _, _, .map _ _ _ | _, _, .set _ _ | _, _, .typeInstance _ _ _ => rfl
  | _, _, .lazySeq h | _, _, .withMeta h _ | _, _, .reduced h => h.isSettled

theorem Rebuilt.core : ∀ {x x' : Value}, Rebuilt num K x x' → Rebuilt num K x.core x'.core
  | v, _, .scalar h => by
    have hcore : v.core = v := by cases v <;> first | rfl | cases h
    rw [hcore]
    exact .scalar h
  | _, _, h@(.list _) | _, _, h@(.vector _) | _, _, h@(.queue _) | _, _, h@(.cons _ _)
  | _, _, h@(.map _ _ _) | _, _, h@(.set _ _) | _, _, h@(.typeInstance _ _ _) => h
  | _, _, .lazySeq h | _, _, .withMeta h _ | _, _, .reduced h => h.core

theorem Rebuilt.tailItems : ∀ {x x' : Value}, Rebuilt num K x x' →
    List.Forall₂ (Rebuilt num K) x.tailItems x'.tailItems
  | v, _, .scalar h => by
    cases v <;> first | exact .nil | cases h
  | _, _, .list h => h
  | _, _, .vector _ | _, _, .queue _ => .nil
  | _, _, .cons h h' => .cons h h'.tailItems
  | _, _, .lazySeq h => h.tailItems
  | _, _, .map _ _ _ | _, _, .set _ _ | _, _, .typeInstance _ _ _ | _, _, .withMeta _ _
  | _, _, .reduced _ => .nil

theorem Twin.refl (x : Value) : Twin num K x x := .inl rfl

theorem Twin.core {x x' : Value} (h : Twin num K x x') : Twin num K x.core x'.core := by
  rcases h with rfl | h
  · exact .refl _
  · exact .inr h.core

theorem forall₂_twin {l l' : List Value} (h : List.Forall₂ (Rebuilt num K) l l') :
    List.Forall₂ (Twin num K) l l' := h.imp fun _ _ => .inr

theorem forall₂_twin_refl (l : List Value) : List.Forall₂ (Twin num K) l l :=
  List.forall₂_same.mpr fun x _ => .refl x

end Wrapping

/-! ## Shapes of twins -/

/-- The entries of a map and of one built anew. -/
def EntryTwin (num : Numerics) (K : Set Value) (e e' : Value × Value) : Prop :=
  Twin num K e.1 e'.1 ∧ Twin num K e.2 e'.2

def MapTwin (num : Numerics) (K : Set Value) (m m' : MapValue Value Value) : Prop :=
  m' = m ∨ (List.Forall₂ (EntryTwin num K) m.iter m'.iter ∧ MapValue.Kept (keyOps num) K m m')

def SetTwin (num : Numerics) (K : Set Value) (s s' : SetValue Value) : Prop :=
  s' = s ∨ (List.Forall₂ (Twin num K) s.iter s'.iter ∧ SetValue.Kept (keyOps num) K s s')

def ShapeTwin (num : Numerics) (K : Set Value) : Shape → Shape → Prop
  | .atom a, .atom a' => a = a'
  | .seq items, .seq items' | .queue items, .queue items' => List.Forall₂ (Twin num K) items items'
  | .map m, .map m' => MapTwin num K m m'
  | .set s, .set s' => SetTwin num K s s'
  | .record tag m, .record tag' m' => tag = tag' ∧ MapTwin num K m m'
  | _, _ => False

section Shapes

variable {num : Numerics} {K : Set Value}

theorem forall₂_entries {P : Value → Value → Prop} : ∀ {l l' : List (Value × Value)},
    List.Forall₂ P (l.map Prod.fst) (l'.map Prod.fst) →
    List.Forall₂ P (l.map Prod.snd) (l'.map Prod.snd) →
    List.Forall₂ (fun e e' => P e.1 e'.1 ∧ P e.2 e'.2) l l'
  | [], [], _, _ => .nil
  | e :: l, e' :: l', h, h' => by
    simp only [List.map_cons, List.forall₂_cons] at h h'
    exact .cons ⟨h.1, h'.1⟩ (forall₂_entries h.2 h'.2)

variable {m m' : MapValue Value Value}

theorem mapTwin_of_rebuilt
    (hkeys : List.Forall₂ (Rebuilt num K) (m.iter.map Prod.fst) (m'.iter.map Prod.fst))
    (hvalues : List.Forall₂ (Rebuilt num K) (m.iter.map Prod.snd) (m'.iter.map Prod.snd))
    (hkept : MapValue.Kept (keyOps num) K m m') : MapTwin num K m m' :=
  .inr ⟨(forall₂_entries hkeys hvalues).imp fun _ _ h => ⟨.inr h.1, .inr h.2⟩, hkept⟩

theorem MapTwin.entries (h : MapTwin num K m m') :
    List.Forall₂ (EntryTwin num K) m.iter m'.iter := by
  rcases h with rfl | h
  · exact List.forall₂_same.mpr fun e _ => ⟨.refl e.1, .refl e.2⟩
  · exact h.1

theorem SetTwin.items {s s' : SetValue Value} (h : SetTwin num K s s') :
    List.Forall₂ (Twin num K) s.iter s'.iter := by
  rcases h with rfl | h
  · exact forall₂_twin_refl _
  · exact h.1

theorem shapeTwin_refl (s : Shape) : ShapeTwin num K s s := by
  cases s with
  | atom a => rfl
  | seq items | queue items => exact forall₂_twin_refl items
  | map | set => exact .inl rfl
  | record => exact ⟨rfl, .inl rfl⟩

theorem Twin.shape {x x' : Value} (hplain : x.isPlain = true) (h : Twin num K x x') :
    ShapeTwin num K x.shape x'.shape := by
  rcases h with rfl | h
  · exact shapeTwin_refl _
  · cases h with
    | scalar h => exact shapeTwin_refl _
    | list h | vector h | queue h => exact forall₂_twin h
    | cons hhead htail => exact .cons (.inr hhead) (forall₂_twin htail.tailItems)
    | lazySeq h => cases hplain
    | map hkeys hvalues hkept => exact mapTwin_of_rebuilt hkeys hvalues hkept
    | set h hkept => exact .inr ⟨forall₂_twin h, hkept⟩
    | typeInstance hkeys hvalues hkept => exact ⟨rfl, mapTwin_of_rebuilt hkeys hvalues hkept⟩
    | withMeta | reduced => cases hplain

theorem Twin.isNaN {x x' : Value} (h : Twin num K x x') (hx : x.isNaN = false)
    (hplain : x.isPlain = true) : x'.isNaN = false := by
  rcases h with rfl | h
  · exact hx
  · cases h with
    | scalar h => exact hx
    | lazySeq h => cases hplain
    | _ => rfl

end Shapes

end Value

end Clojurust
