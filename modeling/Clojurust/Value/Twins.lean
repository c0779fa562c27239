import Clojurust.Value.Rebuilt

/-!
# A value is equal to one built anew

* `Agree` — twins compare, hash and sort like the originals, up to a size;
* `Agree.lawful_map'`, `Agree.lawful_set'` — collections that are built anew are lawful;
* `Tidy.agree` — twins agree whatever the size, by induction on it;
* `Clean.eq_rebuilt` — a value is equal to one built anew, in both directions.
-/

namespace Clojurust

open Matching List Value

namespace Value

/-! ## Twins compare like the originals -/

def isSorted : Value → Bool
  | map (.sorted _) | set (.sorted _) | typeInstance _ (.sorted _) => true
  | _ => false

/-- No part of the value is lazy. -/
inductive Eager : Value → Prop
  | intro {v : Value} (self : ∀ cell x, v ≠ lazySeq cell x) (children : ∀ c ∈ v.children, Eager c) : Eager v

theorem Eager.self {v : Value} : v.Eager → ∀ cell x, v ≠ lazySeq cell x
  | .intro h _ => h

theorem Eager.children {v : Value} : v.Eager → ∀ c ∈ v.children, c.Eager
  | .intro _ h => h

/-- An ordinary class in which no lazy key is searched in a sorted collection. -/
structure Tidy (num : Numerics) (K : Set Value) : Prop extends Ordinary num K where
  eager : ∀ v ∈ K, v.isSorted = true → ∀ k ∈ keysOf K, k.Eager

/-- Values without laziness, decimals, records and sets, and with at most one entry in a map. -/
def isBasic : Value → Bool
  | lazySeq _ _ | bigDecimal _ | typeInstance _ _ | set _ => false
  | map (.array [_]) => true
  | map _ => false
  | v => !v.isNaN

theorem Tidy.of_isBasic {num : Numerics} {K : Set Value} (hchildren : ∀ v ∈ K, ∀ c ∈ v.children, c ∈ K)
    (hbasic : ∀ v ∈ K, v.isBasic = true) : Tidy num K := by
  refine ⟨⟨hchildren, ?_, ?_, ?_, ?_, ?_, ?_, ?_⟩, ?_⟩
  · intro v hv
    have := hbasic v hv
    cases v <;> simp_all [isBasic, isNaN]
  · exact fun _ _ _ h => absurd (hbasic _ h) Bool.false_ne_true
  · exact fun _ _ h => absurd (hbasic _ h) Bool.false_ne_true
  · exact fun _ _ h => absurd (hbasic _ h) Bool.false_ne_true
  · intro m hm
    have := hbasic _ hm
    unfold isBasic at this
    split at this <;> simp_all [MapValue.Built]
  · exact fun _ _ h => absurd (hbasic _ h) Bool.false_ne_true
  · exact fun _ h => absurd (hbasic _ h) Bool.false_ne_true
  · intro v hv hsorted
    have hv' := hbasic v hv
    unfold isSorted at hsorted
    split at hsorted <;> simp_all [isBasic]

/-- The twins of the values of a set. -/
def twins (num : Numerics) (K L : Set Value) : Set Value := {x' | ∃ x ∈ L, Twin num K x x'}

/-- Up to a size, twins compare, hash and sort like the originals; they sort so where nothing is
lazy. -/
@[grind cases]
structure Agree (num : Numerics) (K : Set Value) (n : Nat) : Prop where
  eq : ∀ x ∈ upTo K n, ∀ y ∈ upTo K n, ∀ x' y', Twin num K x x' → Twin num K y y' →
    x'.eq num y' = x.eq num y
  hash : ∀ x ∈ upTo K n, ∀ x', Twin num K x x' → x'.clojureHash num = x.clojureHash num
  cmp : ∀ x ∈ upTo K n, x.Eager → ∀ x', Twin num K x x' → ∀ y, x'.cmp num y = x.cmp num y

/-- The keys that a map holds, those of its index included. -/
def heldKeys : MapValue Value Value → List Value
  | .hash m => m.index.map Prod.fst ++ m.order.map (fun entry => entry.2.1)
  | m => m.iter.map Prod.fst

/-- A map that is built well, with its keys in `L` and all that it holds up to a size. -/
structure MapInside (num : Numerics) (K L : Set Value) (n : Nat) (m : MapValue Value Value) :
    Prop where
  built : m.Built (keyOps num) L
  held : ∀ k ∈ heldKeys m, k ∈ upTo K n
  keys : ∀ e ∈ m.iter, e.1 ∈ L
  eager : ∀ t, m = .sorted t → ∀ k ∈ L, k.Eager

@[grind cases]
structure SetInside (num : Numerics) (K L : Set Value) (n : Nat) (s : SetValue Value) : Prop where
  built : s.Built (keyOps num) L
  held : ∀ x ∈ s.members, x ∈ upTo K n
  keys : ∀ x ∈ s.iter, x ∈ L
  eager : ∀ t, s = .sorted t → ∀ k ∈ L, k.Eager

end Value

/-- What is inside a shape is inside the class, up to a size. -/
def Shape.Inside (num : Numerics) (K L : Set Value) (n : Nat) : Shape → Prop
  | .atom _ => True
  | .seq items | .queue items => ∀ x ∈ items, x ∈ Value.upTo K n
  | .map m => Value.MapInside num K L n m ∧ ∀ e ∈ m.iter, e.2 ∈ Value.upTo K n
  | .set s => Value.SetInside num K L n s
  | .record _ m => Value.MapInside num K L n m ∧ ∀ e ∈ m.iter, e.2 ∈ Value.upTo K n

namespace Value

section Agree

variable {num : Numerics} {K L : Set Value} {n : Nat}
  {m m' a b a' b' : MapValue Value Value} {s s' : SetValue Value}

theorem twins_mono {L' : Set Value} (h : L ⊆ L') : twins num K L ⊆ twins num K L' := by
  rintro x' ⟨x, hx, htwin⟩
  exact ⟨x, h hx, htwin⟩

theorem MapTwin.keys (h : MapTwin num K m m') (hm : ∀ e ∈ m.iter, e.1 ∈ L) :
    ∀ e' ∈ m'.iter, e'.1 ∈ twins num K L := by
  intro e' he'
  obtain ⟨e, he, htwin⟩ := exists_left_of_forall₂ h.entries e' he'
  exact ⟨e.1, hm e he, htwin.1⟩

theorem SetTwin.members (h : SetTwin num K s s') (hs : ∀ x ∈ s.iter, x ∈ L) :
    ∀ x' ∈ s'.iter, x' ∈ twins num K L := by
  intro x' hx'
  obtain ⟨x, hx, htwin⟩ := exists_left_of_forall₂ h.items x' hx'
  exact ⟨x, hs x hx, htwin⟩

theorem mem_heldKeys {e : Value × Value} (he : e ∈ m.iter) : e.1 ∈ heldKeys m := by
  cases m with
  | hash m =>
    obtain ⟨o, ho, rfl⟩ := mem_map.mp he
    exact mem_append_right _ (mem_map_of_mem (f := fun entry => entry.2.1) ho)
  | _ => exact mem_map_of_mem he

theorem mem_members_of_heldKeys {k : Value} (hk : k ∈ heldKeys m) : k ∈ m.members := by
  cases m with
  | hash m =>
    rcases mem_append.mp hk with hk | hk
    · exact mem_append_left _ hk
    · obtain ⟨o, ho, rfl⟩ := mem_map.mp hk
      exact (MapValue.mem_members (m := .hash m) (mem_map_of_mem ho)).1
  | _ =>
    obtain ⟨e, he, rfl⟩ := mem_map.mp hk
    exact (MapValue.mem_members he).1

variable (hK : Ordinary num K) (hA : Agree num K n)

include hK hA

theorem Agree.sound : (keyOps num).Sound (twins num K (upTo K n)) := by
  have hequiv := hK.regular.equivOn
  refine ⟨.of_cancel ?_ ?_, ?_⟩
  · rintro x' ⟨x, hx, htwin⟩
    exact (hA.eq x hx x hx x' x' htwin htwin).trans (hequiv.refl x hx.1)
  · rintro z' ⟨z, hz, htwin⟩ x' ⟨x, hx, htwin'⟩ y' ⟨y, hy, htwin''⟩ h h'
    have hzx := (hA.eq z hz x hx z' x' htwin htwin').symm.trans h
    have hzy := (hA.eq z hz y hy z' y' htwin htwin'').symm.trans h'
    exact (hA.eq x hx y hy x' y' htwin' htwin'').trans (hequiv.left_cancel hx.1 hy.1 hz.1 hzx hzy)
  · rintro x' ⟨x, hx, htwin⟩ y' ⟨y, hy, htwin'⟩ h
    have hxy := (hA.eq x hx y hy x' y' htwin htwin').symm.trans h
    show x'.clojureHash num = y'.clojureHash num
    rw [hA.hash x hx x' htwin, hA.hash y hy y' htwin', hK.hash_eq hx.1 hy.1 hxy]

variable (hL : L ⊆ upTo K n)

include hL

theorem Agree.lawful_map (hm : MapInside num K L n m) : m.Lawful (keyOps num) (twins num K L) := by
  cases m with
  | array | sortedBy => exact ⟨rfl, hm.built, fun _ _ => rfl⟩
  | hash m =>
    refine lawful_hashMap (hA.sound hK) (twins_mono hL) hm.built ?_ ?_
    · intro e he
      exact ⟨e.1, hm.held _ (mem_append_left _ (mem_map_of_mem he)), .refl _⟩
    · intro o ho
      exact ⟨o.2.1, hL (hm.keys _ (mem_map_of_mem ho)), .refl _⟩
  | sorted tree =>
    have hlawful : (MapValue.sorted tree).Lawful (keyOps num) L := hm.built
    refine ⟨hlawful.count, hlawful.distinct, ?_⟩
    rintro k' ⟨k, hk, htwin⟩
    have hcmp := hA.cmp k (hL hk) (hm.eager tree rfl k hk) k' htwin
    have hget : (MapValue.sorted tree).get (keyOps num) k' =
        (MapValue.sorted tree).get (keyOps num) k := by simp only [MapValue.get, keyOps, hcmp]
    rw [hget, hlawful.get k hk]
    refine congrArg (Option.map Prod.snd) (find?_congr ?_)
    intro e he
    exact (hA.eq e.1 (hL (hm.keys e he)) k (hL hk) e.1 k' (.refl _) htwin).symm

theorem Agree.lawful_set (hs : SetInside num K L n s) : s.Lawful (keyOps num) (twins num K L) := by
  cases s with
  | sortedBy => exact ⟨rfl, hs.built, fun _ _ => rfl⟩
  | hash s =>
    refine lawful_hashSet (hA.sound hK) (twins_mono hL) hs.built ?_ ?_
    · intro e he
      exact ⟨e.1, hs.held _ (mem_append_left _ (mem_map_of_mem he)), .refl _⟩
    · intro o ho
      exact ⟨o.2, hL (hs.keys _ (mem_map_of_mem ho)), .refl _⟩
  | sorted tree =>
    have hlawful : (SetValue.sorted tree).Lawful (keyOps num) L := hs.built
    refine ⟨hlawful.count, hlawful.distinct, ?_⟩
    rintro k' ⟨k, hk, htwin⟩
    have hcmp := hA.cmp k (hL hk) (hs.eager tree rfl k hk) k' htwin
    have hcontains : (SetValue.sorted tree).contains (keyOps num) k' =
        (SetValue.sorted tree).contains (keyOps num) k := by
      simp only [SetValue.contains, keyOps, hcmp]
    rw [hcontains, hlawful.contains k hk]
    refine any_congr_of_mem ?_
    intro x hx
    exact (hA.eq x (hL (hs.keys x hx)) k (hL hk) x k' (.refl _) htwin).symm

omit hK hL in
theorem Agree.orders {keys keys' : List Value} (htwins : List.Forall₂ (Twin num K) keys keys')
    (hkeys : ∀ k ∈ keys, k ∈ upTo K n ∧ k.Eager)
    (horders : (keyOps num).Orders K keys) {k k' : Value} (hk : k ∈ upTo K n) (heager : k.Eager)
    (htwin : Twin num K k k') :
    Searchable (k'.cmp num) keys' ∧ ∀ x' ∈ keys', (k'.cmp num x' == .eq) = x'.eq num k' := by
  have hcmp : ∀ x ∈ keys, ∀ x', Twin num K x x' → k'.cmp num x' = k.cmp num x := by
    intro x hx x' hxx'
    obtain ⟨hx, hxeager⟩ := hkeys x hx
    rw [hA.cmp k hk heager k' htwin, cmp_swap, hA.cmp x hx hxeager x' hxx', ← cmp_swap]
  obtain ⟨hsearch, htie⟩ := horders k hk.1
  constructor
  · refine pairwise_of_forall₂ htwins hsearch ?_
    intro x hx y hy x' y' hxx' hyy' h
    rw [hcmp x hx x' hxx', hcmp y hy y' hyy']
    exact h
  · intro x' hx'
    obtain ⟨x, hx, hxx'⟩ := exists_left_of_forall₂ htwins x' hx'
    rw [hcmp x hx x' hxx', hA.eq x (hkeys x hx).1 k hk x' k' hxx' htwin]
    exact htie x hx

/-- **A map that is built anew is lawful.** -/
theorem Agree.lawful_map' (hm : MapInside num K L n m) (h : MapTwin num K m m') :
    m'.Lawful (keyOps num) (twins num K L) := by
  have hentries := h.entries
  have hkeys : List.Forall₂ (Twin num K) (m.iter.map Prod.fst) (m'.iter.map Prod.fst) := by
    rw [List.forall₂_map_left_iff, List.forall₂_map_right_iff]
    exact hentries.imp fun _ _ h => h.1
  have hL' : ∀ k ∈ m.iter.map Prod.fst, k ∈ L := by
    intro k hk
    obtain ⟨e, he, rfl⟩ := mem_map.mp hk
    exact hm.keys e he
  have hmem := h.keys fun e he => hL (hm.keys e he)
  have hdistinct : (m'.iter.map Prod.fst).Pairwise (fun x y => (keyOps num).eq x y = false) := by
    refine pairwise_of_forall₂ hkeys (hA.lawful_map hK hL hm).distinct ?_
    intro x hx y hy x' y' hxx' hyy' hne
    exact (hA.eq x (hL (hL' x hx)) y (hL (hL' y hy)) x' y' hxx' hyy').trans hne
  rcases h with rfl | ⟨-, hunsorted | ⟨t, t', rfl, rfl, horders⟩⟩
  · exact hA.lawful_map hK hL hm
  · cases m' with
    | array => exact ⟨rfl, hdistinct, fun _ _ => rfl⟩
    | hash m' =>
      refine lawful_hashMap (hA.sound hK) (twins_mono hL) hunsorted.1 ?_ ?_
      · intro e he
        obtain ⟨o, ho, heq⟩ := mem_map.mp (hunsorted.2 e he)
        rw [← heq]
        exact hmem _ (mem_map_of_mem ho)
      · intro o ho
        exact hmem _ (mem_map_of_mem ho)
    | sorted | sortedBy => exact hunsorted.elim
  · refine ⟨rfl, hdistinct, ?_⟩
    rintro k' ⟨k, hk, htwin⟩
    obtain ⟨hsearch, htie⟩ := hA.orders hkeys
      (fun x hx => ⟨hL (hL' x hx), hm.eager t rfl x (hL' x hx)⟩) horders (hL hk) (hm.eager t rfl k hk) htwin
    have hsearch' : Searchable (fun e : Value × Value => k'.cmp num e.1) t'.toList :=
      pairwise_map.mp hsearch
    refine congrArg (Option.map Prod.snd) ((find_of_searchable hsearch').trans ?_)
    refine find?_congr ?_
    intro e he
    exact htie e.1 (mem_map_of_mem he)

theorem Agree.lawful_set' (hs : SetInside num K L n s) (h : SetTwin num K s s') :
    s'.Lawful (keyOps num) (twins num K L) := by
  have hitems := h.items
  have hmem := h.members fun x hx => hL (hs.keys x hx)
  rcases h with rfl | ⟨-, hunsorted | ⟨t, t', rfl, rfl, horders⟩⟩
  · exact hA.lawful_set hK hL hs
  · cases s' with
    | hash s' =>
      refine lawful_hashSet (hA.sound hK) (twins_mono hL) hunsorted.1 ?_ ?_
      · intro e he
        exact hmem _ (hunsorted.2 e he)
      · intro o ho
        exact hmem _ (mem_map_of_mem ho)
    | sorted | sortedBy => exact hunsorted.elim
  · refine ⟨rfl, ?_, ?_⟩
    · refine pairwise_of_forall₂ hitems (hA.lawful_set hK hL hs).distinct ?_
      intro x hx y hy x' y' hxx' hyy' hne
      exact (hA.eq x (hL (hs.keys x hx)) y (hL (hs.keys y hy)) x' y' hxx' hyy').trans hne
    · rintro k' ⟨k, hk, htwin⟩
      obtain ⟨hsearch, htie⟩ := hA.orders hitems
        (fun x hx => ⟨hL (hs.keys x hx), hs.eager t rfl x (hs.keys x hx)⟩) horders (hL hk)
        (hs.eager t rfl k hk) htwin
      simp only [SetValue.contains, SetValue.iter]
      rw [show (fun entry => (keyOps num).cmp k' entry) = k'.cmp num from rfl,
        find_of_searchable hsearch, isSome_find?]
      exact any_congr_of_mem htie

/-! ### Shapes -/

theorem Agree.mapsEqual_iff (ha : MapInside num K L n a) (hb : MapInside num K L n b)
    (h : MapTwin num K a a') (h' : MapTwin num K b b') :
    a'.mapsEqual (keyOps num) (Value.eq num) b' = true ↔ a'.iter.length = b'.iter.length ∧
      ∀ e ∈ a'.iter, ∃ f ∈ b'.iter, EntryEq (keyOps num).eq (Value.eq num) e f :=
  MapValue.mapsEqual_iff ((hA.sound hK).equiv.mono (twins_mono hL)) (hA.lawful_map' hK hL ha h)
    (hA.lawful_map' hK hL hb h') (h.keys ha.keys) (h'.keys hb.keys)

theorem Agree.mapsEqual_twins (ha : MapInside num K L n a) (hb : MapInside num K L n b)
    (hva : ∀ e ∈ a.iter, e.2 ∈ upTo K n) (hvb : ∀ e ∈ b.iter, e.2 ∈ upTo K n)
    (h : MapTwin num K a a') (h' : MapTwin num K b b') :
    a'.mapsEqual (keyOps num) (Value.eq num) b' = true ↔
      a.mapsEqual (keyOps num) (Value.eq num) b = true := by
  rw [hA.mapsEqual_iff hK hL ha hb h h', hA.mapsEqual_iff hK hL ha hb (.inl rfl) (.inl rfl),
    ← h.entries.length_eq, ← h'.entries.length_eq]
  refine and_congr_right fun _ => forall_exists_of_forall₂ h.entries h'.entries ?_
  intro e he f hf e' f' hee' hff'
  have hkey := hA.eq f.1 (hL (hb.keys f hf)) e.1 (hL (ha.keys e he)) f'.1 e'.1 hff'.1 hee'.1
  have hvalue := hA.eq f.2 (hvb f hf) e.2 (hva e he) f'.2 e'.2 hff'.2 hee'.2
  unfold EntryEq
  rw [show (keyOps num).eq f'.1 e'.1 = (keyOps num).eq f.1 e.1 from hkey, hvalue]

theorem Agree.setsEqual_iff {a b a' b' : SetValue Value} (ha : SetInside num K L n a)
    (hb : SetInside num K L n b) (h : SetTwin num K a a') (h' : SetTwin num K b b') :
    a'.setsEqual (keyOps num) b' = true ↔ a'.iter.length = b'.iter.length ∧
      ∀ x ∈ a'.iter, ∃ y ∈ b'.iter, (keyOps num).eq y x = true :=
  SetValue.setsEqual_iff (hA.lawful_set' hK hL ha h) (hA.lawful_set' hK hL hb h') (h.members ha.keys)

theorem Agree.setsEqual_twins {a b a' b' : SetValue Value} (ha : SetInside num K L n a)
    (hb : SetInside num K L n b) (h : SetTwin num K a a') (h' : SetTwin num K b b') :
    a'.setsEqual (keyOps num) b' = true ↔ a.setsEqual (keyOps num) b = true := by
  rw [hA.setsEqual_iff hK hL ha hb h h', hA.setsEqual_iff hK hL ha hb (.inl rfl) (.inl rfl),
    ← h.items.length_eq, ← h'.items.length_eq]
  refine and_congr_right fun _ => forall_exists_of_forall₂ h.items h'.items ?_
  intro x hx y hy x' y' hxx' hyy'
  have heq := hA.eq y (hL (hb.keys y hy)) x (hL (ha.keys x hx)) y' x' hyy' hxx'
  rw [show (keyOps num).eq y' x' = (keyOps num).eq y x from heq]

omit hK hL in
theorem Agree.items_twins {a b a' b' : List Value} (ha : ∀ x ∈ a, x ∈ upTo K n)
    (hb : ∀ x ∈ b, x ∈ upTo K n) (h : List.Forall₂ (Twin num K) a a')
    (h' : List.Forall₂ (Twin num K) b b') :
    List.Forall₂ (fun x y => x.eq num y = true) a' b' ↔
      List.Forall₂ (fun x y => x.eq num y = true) a b := by
  induction h generalizing b b' with
  | nil =>
    cases h' with
    | nil => exact Iff.rfl
    | cons => exact ⟨nofun, nofun⟩
  | @cons x x' a a' hxx' _ ih =>
    cases h' with
    | nil => exact ⟨nofun, nofun⟩
    | @cons y y' b b' hyy' hrest =>
      simp only [forall_mem_cons] at ha hb
      rw [List.forall₂_cons, List.forall₂_cons, ih ha.2 hb.2 hrest,
        hA.eq x ha.1 y hb.1 x' y' hxx' hyy']

/-- **Shapes of twins are equal when those of the originals are.** -/
theorem Agree.rel_twins {s t s' t' : Shape} (hs : s.Inside num K L n) (ht : t.Inside num K L n)
    (h : ShapeTwin num K s s') (h' : ShapeTwin num K t t') :
    Shape.Rel num (Value.eq num) s' t' ↔ Shape.Rel num (Value.eq num) s t := by
  cases s <;> cases s' <;> try exact h.elim
  all_goals cases t <;> cases t' <;> first | exact h'.elim | exact Iff.rfl | skip
  case atom.atom.atom.atom =>
    cases h
    cases h'
    exact Iff.rfl
  case seq.seq.seq.seq => exact hA.items_twins hs ht h h'
  case queue.queue.queue.queue => exact hA.items_twins hs ht h h'
  case map.map.map.map => exact hA.mapsEqual_twins hK hL hs.1 ht.1 hs.2 ht.2 h h'
  case set.set.set.set => exact hA.setsEqual_twins hK hL hs ht h h'
  case record.record.record.record =>
    rw [Shape.Rel, Shape.Rel, ← h.1, ← h'.1]
    exact and_congr_right fun _ => hA.mapsEqual_twins hK hL hs.1 ht.1 hs.2 ht.2 h.2 h'.2

omit hK hL in
theorem Agree.hashEntries_twins (ha : ∀ e ∈ a.iter, e.1 ∈ upTo K n)
    (hva : ∀ e ∈ a.iter, e.2 ∈ upTo K n) (h : MapTwin num K a a') :
    hashEntries (clojureHash num) a'.iter = hashEntries (clojureHash num) a.iter := by
  refine foldl_of_forall₂ h.entries ?_
  intro e he e' htwin acc
  rw [hA.hash e.1 (ha e he) e'.1 htwin.1, hA.hash e.2 (hva e he) e'.2 htwin.2]

omit hK in
theorem Agree.hash_twins {s s' : Shape} (hs : s.Inside num K L n) (h : ShapeTwin num K s s') :
    s'.hash (clojureHash num) = s.hash (clojureHash num) := by
  have hitems : ∀ {items items' : List Value}, (∀ x ∈ items, x ∈ upTo K n) →
      List.Forall₂ (Twin num K) items items' →
      hashOrdered (clojureHash num) items' = hashOrdered (clojureHash num) items := by
    intro items items' hmem htwins
    refine foldl_of_forall₂ htwins ?_
    intro x hx x' htwin acc
    rw [hA.hash x (hmem x hx) x' htwin]
  cases s <;> cases s' <;> try exact h.elim
  case atom.atom =>
    cases h
    rfl
  case seq.seq => exact hitems hs h
  case queue.queue => exact hitems hs h
  case map.map => exact hA.hashEntries_twins (fun e he => hL (hs.1.keys e he)) hs.2 h
  case set.set =>
    refine foldl_of_forall₂ h.items ?_
    intro x hx x' htwin acc
    rw [hA.hash x (hL (hs.keys x hx)) x' htwin]
  case record.record =>
    rw [Shape.hash, Shape.hash, ← h.1,
      hA.hashEntries_twins (fun e he => hL (hs.1.keys e he)) hs.2 h.2]

end Agree

/-! ### One more size -/

attribute [local simp] children

section Succ

variable {num : Numerics} {K : Set Value} {n : Nat} {x y x' y' v : Value}

theorem Twin.isDecimal (h : Twin num K x x') (hdec : x.isDecimal = true) : x' = x := by
  rcases h with rfl | h
  · rfl
  · cases h <;> first | rfl | cases hdec

theorem Twin.isDecimal_false (h : Twin num K x x') (hplain : x.isPlain = true)
    (hdec : x.isDecimal = false) : x'.isDecimal = false := by
  rcases h with rfl | h
  · exact hdec
  · cases h <;> first | rfl | exact hdec | cases hplain

/-- Beside a lazy seq that realises to `nil`, no value is an empty sequence. -/
theorem Ordinary.not_blank (hK : Ordinary num K) (hx : x ∈ K) (hlazy : x.isSettled = false)
    (hnil : x.core = nil) (hy : y ∈ K) (h : Twin num K y y') : y'.core.isBlank = false := by
  obtain ⟨cell, realized, hcell, hrealized⟩ : ∃ cell realized, lazySeq cell realized ∈ K ∧
      realized.core = nil := by
    fun_induction isSettled x with
    | case1 inner _ ih | case2 inner ih => exact ih (hK.children _ hx inner (by simp)) hlazy hnil
    | case3 cell realized => exact ⟨cell, realized, hx, hnil⟩
    | case4 => cases hlazy
  have hcore : y.core ∈ K := hK.regular.core_mem hy
  have hblank : y.core.isBlank = false := by
    by_contra hblank
    rw [Bool.not_eq_false] at hblank
    have hnil' := eq_nil_iff.mp (hK.notNil cell realized hcell (eq_nil_iff.mpr hrealized) _ hcore hblank)
    rw [core_of_isPlain (isPlain_core y)] at hnil'
    simp [hnil', isBlank, isSequential] at hblank
  -- what is built anew from a plain value has as many items
  have hplain := isPlain_core y
  rcases h.core with heq | h
  · rw [heq]
    exact hblank
  · generalize y.core = w at *
    generalize y'.core = w' at *
    cases h with
    | scalar => exact hblank
    | list h | vector h =>
      cases h with
      | nil => exact hblank
      | cons => rfl
    | lazySeq | withMeta | reduced => cases hplain
    | _ => rfl

theorem Ordinary.eq_core_twins (hK : Ordinary num K) (hx : x ∈ K) (hy : y ∈ K)
    (h : Twin num K x x') (h' : Twin num K y y') :
    x'.eq num y' = eqPlain num (eq num) x'.core y'.core := by
  rcases h with rfl | h
  · rcases h' with rfl | h'
    · exact hK.regular.eq_core hx hy
    · exact eq_core_of_isSettled (fun hlazy hnil => hK.not_blank hx hlazy hnil hy (.inr h'))
        (by simp [h'.isSettled]) (.inr h'.isSettled)
  · rcases h' with rfl | h'
    · exact eq_core_of_isSettled (by simp [h.isSettled])
        (fun hlazy hnil => hK.not_blank hy hlazy hnil hx (.inr h)) (.inl h.isSettled)
    · exact eq_core_of_isSettled (by simp [h.isSettled]) (by simp [h'.isSettled]) (.inl h.isSettled)

variable (hK : Tidy num K)

include hK

theorem Tidy.shape_inside (hv : v ∈ upTo K (n + 1)) :
    v.shape.Inside num K (keysOf K ∩ upTo K n) n := by
  have hchild : ∀ x ∈ v.children, x ∈ upTo K n := fun x hx => hK.child_upTo hv hx
  have hitems : ∀ x ∈ v.valueToSeqVec, x ∈ upTo K n := by
    refine forall_valueToSeqVec (P := fun x => x ∈ upTo K n) ?_ hchild
    intro w hw c hc
    have := size_lt_of_mem hc
    exact ⟨hK.children w hw.1 c hc, by have := hw.2; omega⟩
  have hmap : ∀ {m : MapValue Value Value}, v.children = m.members →
      v.keys = m.iter.map Prod.fst → m.Built (keyOps num) (keysOf K) →
      (∀ t, m = .sorted t → v.isSorted = true) →
      MapInside num K (keysOf K ∩ upTo K n) n m ∧ ∀ e ∈ m.iter, e.2 ∈ upTo K n := by
    intro m hchildren hkeys hbuilt hsorted
    rw [hchildren] at hchild
    refine ⟨⟨hbuilt.mono Set.inter_subset_left, ?_, ?_, ?_⟩, ?_⟩
    · exact fun k hk => hchild k (mem_members_of_heldKeys hk)
    · intro e he
      exact ⟨⟨v, hv.1, hkeys ▸ mem_map_of_mem he⟩, hchild _ (MapValue.mem_members he).1⟩
    · exact fun t ht k hk => hK.eager v hv.1 (hsorted t ht) k hk.1
    · exact fun e he => hchild _ (MapValue.mem_members he).2
  cases v with
  | list | vector => exact hchild
  | cons => exact hitems
  | queue => exact hchild
  | map m => exact hmap rfl rfl (hK.maps m hv.1) (by rintro t rfl; rfl)
  | typeInstance tag m => exact hmap rfl rfl (hK.records tag m hv.1) (by rintro t rfl; rfl)
  | set s =>
    refine ⟨(hK.sets s hv.1).mono Set.inter_subset_left, hchild, ?_, ?_⟩
    · exact fun x hx => ⟨⟨_, hv.1, hx⟩, hchild x (SetValue.mem_members hx)⟩
    · rintro t rfl k hk
      exact hK.eager _ hv.1 rfl k hk.1
  | _ => trivial

theorem Tidy.core_upTo (hv : v ∈ upTo K n) : v.core ∈ upTo K n := by
  have := size_core_le v
  have := hv.2
  exact ⟨hK.regular.core_mem hv.1, by omega⟩

theorem Agree.eq_succ (hA : Agree num K n) (hx : x ∈ upTo K (n + 1))
    (hy : y ∈ upTo K (n + 1)) (h : Twin num K x x') (h' : Twin num K y y') :
    x'.eq num y' = x.eq num y := by
  have hcx := hK.core_upTo hx
  have hcy := hK.core_upTo hy
  have hnx := hK.notNaN _ hcx.1
  have hny := hK.notNaN _ hcy.1
  rw [hK.eq_core_twins hx.1 hy.1 h h', hK.regular.eq_core hx.1 hy.1, Bool.eq_iff_iff,
    eqPlain_iff (isPlain_core x') (isPlain_core y') (h.core.isNaN hnx (isPlain_core x))
      (h'.core.isNaN hny (isPlain_core y)),
    eqPlain_iff (isPlain_core x) (isPlain_core y) hnx hny]
  exact hA.rel_twins hK.toOrdinary Set.inter_subset_right (hK.shape_inside hcx)
    (hK.shape_inside hcy) (h.core.shape (isPlain_core x)) (h'.core.shape (isPlain_core y))

theorem Agree.hash_succ (hA : Agree num K n) (hx : x ∈ upTo K (n + 1))
    (h : Twin num K x x') : x'.clojureHash num = x.clojureHash num := by
  have hplain := isPlain_core x
  rw [← clojureHash_core x', ← clojureHash_core x]
  by_cases hdec : x.core.isDecimal = true
  · rw [h.core.isDecimal hdec]
  · rw [Bool.not_eq_true] at hdec
    rw [clojureHash_shape hplain hdec,
      clojureHash_shape (isPlain_core x') (h.core.isDecimal_false hplain hdec)]
    exact hA.hash_twins Set.inter_subset_right (hK.shape_inside (hK.core_upTo hx))
      (h.core.shape hplain)

/-! #### The order -/

omit hK in
theorem Eager.typeDiscriminant_rebuilt {x x' : Value} (hx : x.Eager) (h : Rebuilt num K x x') :
    x'.typeDiscriminant = x.typeDiscriminant := by
  cases h with
  | lazySeq _ => exact (hx.self _ _ rfl).elim
  | @withMeta inner _ _ _ h _ | @reduced inner _ h =>
    have hinner := Eager.typeDiscriminant_rebuilt (hx.children inner (by simp)) h
    exact hinner
  | _ => rfl
termination_by x

theorem Tidy.rebuilt_unwrapMeta {x x' : Value} (hx : x ∈ K) (heager : x.Eager)
    (h : Rebuilt num K x x') :
    x.unwrapMeta ∈ K ∧ x.unwrapMeta.Eager ∧ Rebuilt num K x.unwrapMeta x'.unwrapMeta := by
  have hself := h
  cases h with
  | lazySeq _ => exact (heager.self _ _ rfl).elim
  | @withMeta inner _ _ _ h _ =>
    have hinner := Tidy.rebuilt_unwrapMeta (hK.children _ hx inner (by simp))
      (heager.children inner (by simp)) h
    exact hinner
  | scalar h =>
    have hid : x.unwrapMeta = x := by cases x <;> first | rfl | cases h
    rw [hid]
    exact ⟨hx, heager, hself⟩
  | _ => exact ⟨hx, heager, hself⟩
termination_by x

omit hK in
theorem Agree.iterCmp_twins (hA : Agree num K n) {a a' : List Value}
    (ha : ∀ x ∈ a, x ∈ upTo K n ∧ x.Eager)
    (h : List.Forall₂ (Rebuilt num K) a a') (b : List Value) :
    iterCmp (Value.cmp num) a' b = iterCmp (Value.cmp num) a b := by
  induction h generalizing b with
  | nil => rfl
  | @cons x x' a a' hxx' _ ih =>
    simp only [forall_mem_cons] at ha
    cases b with
    | nil => rfl
    | cons y b => simp only [iterCmp, hA.cmp x ha.1.1 ha.1.2 x' (.inr hxx') y, ih ha.2 b]

theorem Agree.cmp_succ (hA : Agree num K n) (hx : x ∈ upTo K (n + 1)) (heager : x.Eager)
    (h : Twin num K x x') (y : Value) : x'.cmp num y = x.cmp num y := by
  rcases h with rfl | h
  · rfl
  obtain ⟨hmem, heager, hrebuilt⟩ := hK.rebuilt_unwrapMeta hx.1 heager h
  have hsize := size_unwrapMeta_le x
  have hupTo : x.unwrapMeta ∈ upTo K (n + 1) := ⟨hmem, hsize.trans hx.2⟩
  have hmeta := isMeta_unwrapMeta x
  rw [cmp_unwrapMeta x' y, cmp_unwrapMeta x y]
  generalize x.unwrapMeta = v at *
  generalize x'.unwrapMeta = v' at *
  generalize y.unwrapMeta = w
  have hchild : ∀ c ∈ v.children, c ∈ upTo K n ∧ c.Eager := fun c hc =>
    ⟨hK.child_upTo hupTo hc, heager.children c hc⟩
  have hinside := hK.shape_inside hupTo
  cases hrebuilt with
  | scalar _ => rfl
  | list h | vector h => cases w <;> first | rfl | exact hA.iterCmp_twins hchild h _
  | map hkeys hvalues hkept =>
    have htwin := mapTwin_of_rebuilt hkeys hvalues hkept
    have hcount := (hA.lawful_map' hK.toOrdinary Set.inter_subset_right hinside.1 htwin).count
    rw [← htwin.entries.length_eq,
      ← (hA.lawful_map hK.toOrdinary Set.inter_subset_right hinside.1).count] at hcount
    cases w <;> first | rfl | simp only [cmpPlain, hcount]
  | set h hkept =>
    have htwin : SetTwin num K _ _ := .inr ⟨forall₂_twin h, hkept⟩
    have hcount := (hA.lawful_set' hK.toOrdinary Set.inter_subset_right hinside htwin).count
    rw [← htwin.items.length_eq,
      ← (hA.lawful_set hK.toOrdinary Set.inter_subset_right hinside).count] at hcount
    cases w <;> first | rfl | simp only [cmpPlain, hcount]
  | lazySeq _ => exact (heager.self _ _ rfl).elim
  | withMeta => cases hmeta
  | reduced h =>
    rw [(cmpPlain_reduced _ w).1, (cmpPlain_reduced _ w).1,
      (hchild _ (by simp)).2.typeDiscriminant_rebuilt h]
  | queue | cons | typeInstance => cases w <;> rfl

/-- **Twins compare, hash and sort like the originals**, whatever the size. -/
theorem Tidy.agree : ∀ n, Agree num K n
  | 0 => by
    have hempty : ∀ x, x ∉ upTo K 0 := by
      intro x hx
      have := size_pos x
      have := hx.2
      omega
    exact ⟨fun x hx => (hempty x hx).elim, fun x hx => (hempty x hx).elim,
      fun x hx => (hempty x hx).elim⟩
  | n + 1 =>
    have hA := Tidy.agree n
    ⟨fun _ hx _ hy _ _ h h' => hA.eq_succ hK hx hy h h', fun _ hx _ h => hA.hash_succ hK hx h,
      fun _ hx heager _ h y => hA.cmp_succ hK hx heager h y⟩

end Succ

/-! ## A value is equal to one built anew -/

/-- The keys of a map. -/
def keySet (m : MapValue Value Value) : Set Value := {k | ∃ e ∈ m.iter, e.1 = k}

/-- A map, or a record with a map of fields. -/
inductive HasMap : Value → MapValue Value Value → Prop
  | map (m : MapValue Value Value) : HasMap (map m) m
  | typeInstance (tag : String) (m : MapValue Value Value) : HasMap (typeInstance tag m) m

theorem HasMap.children {v : Value} {m : MapValue Value Value} (h : v.HasMap m) :
    v.children = m.members := by cases h <;> rfl

theorem HasMap.isSorted {v : Value} {t : Tree (Value × Value)} (h : v.HasMap (.sorted t)) :
    v.isSorted = true := by cases h <;> rfl

/-- A class of values whose maps and sets are built well with keys in `K`. -/
@[grind cases]
structure Clean (num : Numerics) (K D : Set Value) : Prop where
  children : ∀ v ∈ D, ∀ c ∈ v.children, c ∈ D
  notNaN : ∀ v ∈ D, v.isNaN = false
  eager : ∀ v ∈ D, v.isSorted = true → ∀ k ∈ v.keys, k.Eager
  maps : ∀ m, map m ∈ D → m.Built (keyOps num) (keySet m) ∧ ∀ k ∈ heldKeys m, k ∈ K
  records : ∀ tag m, typeInstance tag m ∈ D →
    m.Built (keyOps num) (keySet m) ∧ ∀ k ∈ heldKeys m, k ∈ K
  sets : ∀ s, set s ∈ D → s.Built (keyOps num) {x | x ∈ s.iter} ∧ ∀ k ∈ s.members, k ∈ K

section Clean

variable {num : Numerics} {K D : Set Value} {v : Value}
  {m m' : MapValue Value Value} {s s' : SetValue Value}

theorem eq_lazySeq (cell : Nat) {realized b : Value} (hsettled : b.isSettled = true)
    (hnil : realized.eq num nil = true → b.core = nil) :
    (lazySeq cell realized).eq num b = realized.eq num b ∧
      b.eq num (lazySeq cell realized) = b.eq num realized := by
  fun_induction isSettled b with
  | case1 inner metadata ih =>
    rw [eq_withMeta_right, eq_withMeta_right, eq_withMeta_left, eq_withMeta_left]
    exact ih hsettled hnil
  | case2 inner ih =>
    rw [eq_reduced_right, eq_reduced_right, eq_reduced_left, eq_reduced_left]
    exact ih hsettled hnil
  | case3 => cases hsettled
  | case4 b =>
    cases b with
    | withMeta | reduced | lazySeq => grind
    | list | vector | cons =>
      have hne : realized.eq num nil = false := by
        rw [← Bool.not_eq_true]
        intro h
        cases hnil h
      constructor <;>
      · rw [eq_eq]
        simp [eqStep, sameCell, hne]
    | _ =>
      constructor <;>
      · rw [eq_eq]
        simp [eqStep, sameCell, isSequential]

theorem Tidy.clean (hK : Tidy num K) : Clean num K K := by
  have hkeys : ∀ {v : Value} {m : MapValue Value Value}, v ∈ K → v.HasMap m →
      m.Built (keyOps num) (keysOf K) →
      m.Built (keyOps num) (keySet m) ∧ ∀ k ∈ heldKeys m, k ∈ K := by
    intro v m hv hm hbuilt
    refine ⟨hbuilt.mono ?_, ?_⟩
    · rintro k ⟨e, he, rfl⟩
      have hmem : e.1 ∈ v.keys := by cases hm <;> exact mem_map_of_mem he
      exact ⟨v, hv, hmem⟩
    · intro k hk
      exact hK.children v hv k (hm.children ▸ mem_members_of_heldKeys hk)
  refine ⟨hK.children, hK.notNaN, fun v hv hsorted k hk => hK.eager v hv hsorted k ⟨v, hv, hk⟩, ?_, ?_, ?_⟩
  · exact fun m hm => hkeys hm (.map m) (hK.maps m hm)
  · exact fun tag m hm => hkeys hm (.typeInstance tag m) (hK.records tag m hm)
  · intro s hs
    refine ⟨(hK.sets s hs).mono fun x hx => ⟨set s, hs, hx⟩, ?_⟩
    exact fun k hk => hK.children _ hs k hk

variable (hK : Tidy num K) (hD : Clean num K D)

include hK hD

omit hK in
theorem Clean.mapInside (hv : v ∈ D) (h : v.HasMap m) : MapInside num K (keySet m) v.size m := by
  have hm : m.Built (keyOps num) (keySet m) ∧ ∀ k ∈ heldKeys m, k ∈ K := by
    cases h with
    | map => exact hD.maps m hv
    | typeInstance tag => exact hD.records tag m hv
  refine ⟨hm.1, ?_, fun e he => ⟨e, he, rfl⟩, ?_⟩
  · intro k hk
    have hmem := mem_members_of_heldKeys hk
    rw [← h.children] at hmem
    exact ⟨hm.2 k hk, (size_lt_of_mem hmem).le⟩
  · rintro t rfl k ⟨e, he, rfl⟩
    refine hD.eager v hv h.isSorted e.1 ?_
    cases h <;> exact mem_map_of_mem he

omit hK in
theorem Clean.setInside (hs : set s ∈ D) : SetInside num K {x | x ∈ s.iter} (set s).size s := by
  obtain ⟨hbuilt, hheld⟩ := hD.sets s hs
  refine ⟨hbuilt, ?_, fun _ hx => hx, ?_⟩
  · exact fun k hk => ⟨hheld k hk, (size_lt_of_mem (v := set s) hk).le⟩
  · rintro t rfl
    exact fun k hk => hD.eager _ hs rfl k hk

omit hK hD in
theorem MapInside.keySet_subset {n : Nat} (h : MapInside num K (keySet m) n m) :
    keySet m ⊆ upTo K n := by
  rintro k ⟨e, he, rfl⟩
  exact h.held _ (mem_heldKeys he)

theorem Clean.mapsEqual_rebuilt (hv : v ∈ D) (h : v.HasMap m)
    (hkeys : List.Forall₂ (Rebuilt num K) (m.iter.map Prod.fst) (m'.iter.map Prod.fst))
    (hvalues : List.Forall₂ (Rebuilt num K) (m.iter.map Prod.snd) (m'.iter.map Prod.snd))
    (hkept : MapValue.Kept (keyOps num) K m m')
    (ih : ∀ x ∈ v.children, ∀ x', Rebuilt num K x x' → x.eq num x' = true ∧ x'.eq num x = true) :
    m.mapsEqual (keyOps num) (eq num) m' = true ∧
      m'.mapsEqual (keyOps num) (eq num) m = true := by
  have hA := hK.agree v.size
  have hinside := hD.mapInside hv h
  have hL := hinside.keySet_subset
  have htwin := mapTwin_of_rebuilt hkeys hvalues hkept
  -- the entry at the same place is the one that is found
  have hentry : ∀ e ∈ m.iter, ∀ e', Rebuilt num K e.1 e'.1 ∧ Rebuilt num K e.2 e'.2 →
      EntryEq (keyOps num).eq (eq num) e e' ∧ EntryEq (keyOps num).eq (eq num) e' e := by
    intro e he e' hee'
    have hchild := MapValue.mem_members he
    rw [← h.children] at hchild
    have hkey := ih e.1 hchild.1 e'.1 hee'.1
    have hvalue := ih e.2 hchild.2 e'.2 hee'.2
    exact ⟨⟨hkey.2, hvalue.2⟩, ⟨hkey.1, hvalue.1⟩⟩
  have hentries := forall₂_entries hkeys hvalues
  rw [hA.mapsEqual_iff hK.toOrdinary hL hinside hinside (.inl rfl) htwin,
    hA.mapsEqual_iff hK.toOrdinary hL hinside hinside htwin (.inl rfl)]
  refine ⟨⟨htwin.entries.length_eq, ?_⟩, htwin.entries.length_eq.symm, ?_⟩
  · intro e he
    obtain ⟨e', he', hee'⟩ := exists_right_of_forall₂ hentries e he
    exact ⟨e', he', (hentry e he e' hee').1⟩
  · intro e' he'
    obtain ⟨e, he, hee'⟩ := exists_left_of_forall₂ hentries e' he'
    exact ⟨e, he, (hentry e he e' hee').2⟩

theorem Clean.setsEqual_rebuilt (hv : set s ∈ D)
    (hitems : List.Forall₂ (Rebuilt num K) s.iter s'.iter)
    (hkept : SetValue.Kept (keyOps num) K s s')
    (ih : ∀ x ∈ s.members, ∀ x', Rebuilt num K x x' → x.eq num x' = true ∧ x'.eq num x = true) :
    s.setsEqual (keyOps num) s' = true ∧ s'.setsEqual (keyOps num) s = true := by
  have hA := hK.agree (set s).size
  have hinside := hD.setInside hv
  have hL : {x | x ∈ s.iter} ⊆ upTo K (set s).size := fun k hk =>
    hinside.held k (SetValue.mem_members hk)
  have htwin : SetTwin num K s s' := .inr ⟨forall₂_twin hitems, hkept⟩
  rw [hA.setsEqual_iff hK.toOrdinary hL hinside hinside (.inl rfl) htwin,
    hA.setsEqual_iff hK.toOrdinary hL hinside hinside htwin (.inl rfl)]
  refine ⟨⟨htwin.items.length_eq, ?_⟩, htwin.items.length_eq.symm, ?_⟩
  · intro x hx
    obtain ⟨x', hx', h⟩ := exists_right_of_forall₂ hitems x hx
    exact ⟨x', hx', (ih x (SetValue.mem_members hx) x' h).2⟩
  · intro x' hx'
    obtain ⟨x, hx, h⟩ := exists_left_of_forall₂ hitems x' hx'
    exact ⟨x, hx, (ih x (SetValue.mem_members hx) x' h).1⟩

/-- **A value is equal to one built anew from it**, in both directions. -/
theorem Clean.eq_rebuilt {x x' : Value} (hx : x ∈ D) (h : Rebuilt num K x x') :
    x.eq num x' = true ∧ x'.eq num x = true := by
  induction hn : x.size using Nat.strong_induction_on generalizing x x' with
  | _ n ih =>
    have hchild : ∀ c ∈ x.children, ∀ c', Rebuilt num K c c' → c.eq num c' = true ∧
        c'.eq num c = true := fun c hc c' h =>
      ih c.size (hn ▸ size_lt_of_mem hc) (hD.children x hx c hc) h rfl
    have hitems : ∀ {l l' : List Value}, (∀ c ∈ l, c ∈ D ∧ c.size < n) →
        List.Forall₂ (Rebuilt num K) l l' →
        List.Forall₂ (fun x y => x.eq num y = true) l l' ∧
          List.Forall₂ (fun x y => x.eq num y = true) l' l := by
      intro l l' hl hll'
      induction hll' with
      | nil => exact ⟨.nil, .nil⟩
      | @cons c c' l l' hc _ ih' =>
        simp only [forall_mem_cons] at hl
        have heq := ih c.size hl.1.2 hl.1.1 hc rfl
        have hrest := ih' hl.2
        exact ⟨.cons heq.1 hrest.1, .cons heq.2 hrest.2⟩
    have hparts : ∀ c ∈ x.children, c ∈ D ∧ c.size < n := fun c hc =>
      ⟨hD.children x hx c hc, hn ▸ size_lt_of_mem hc⟩
    have hseq : ∀ c ∈ x.valueToSeqVec, c ∈ D ∧ c.size < n := by
      refine forall_valueToSeqVec (P := fun c => c ∈ D ∧ c.size < n) ?_ hparts
      exact fun w hw c hc => ⟨hD.children w hw.1 c hc, (size_lt_of_mem hc).trans hw.2⟩
    -- plain values are compared by their shapes
    have hplain : x.isPlain = true → x'.isPlain = true → x'.isNaN = false →
        (Shape.Rel num (eq num) x.shape x'.shape ∧
          Shape.Rel num (eq num) x'.shape x.shape) →
        x.eq num x' = true ∧ x'.eq num x = true := by
      intro hp hp' hnan hrel
      have hnan' := hD.notNaN x hx
      rw [eq_plain hp hp', eq_plain hp' hp, eqPlain_iff hp hp' hnan' hnan,
        eqPlain_iff hp' hp hnan hnan']
      exact hrel
    cases h with
    | scalar hscalar =>
      have hp : x.isPlain = true := by cases x <;> first | rfl | cases hscalar
      have hrel : Shape.Rel num (eq num) x.shape x.shape := by
        cases x <;> first | rfl | cases hscalar
      grind
    | list h | vector h | queue h => exact hplain rfl rfl rfl (hitems hparts h)
    | cons hhead htail => exact hplain rfl rfl rfl (hitems hseq (.cons hhead htail.tailItems))
    | @lazySeq cell realized _ h =>
      have hnil : realized.eq num nil = true → x'.core = nil := by
        intro hnil
        have hcore := h.core
        rw [eq_nil_iff.mp hnil] at hcore
        generalize x'.core = w at hcore ⊢
        cases hcore with
        | scalar _ => rfl
      obtain ⟨hleft, hright⟩ := eq_lazySeq cell h.isSettled hnil
      rw [hleft, hright]
      exact hchild realized (by simp) x' h
    | map hkeys hvalues hkept =>
      exact hplain rfl rfl rfl (hD.mapsEqual_rebuilt hK hx (.map _) hkeys hvalues hkept hchild)
    | set h hkept => exact hplain rfl rfl rfl (hD.setsEqual_rebuilt hK hx h hkept hchild)
    | typeInstance hkeys hvalues hkept =>
      have hfields := hD.mapsEqual_rebuilt hK hx (.typeInstance _ _) hkeys hvalues hkept hchild
      exact hplain rfl rfl rfl ⟨⟨rfl, hfields.1⟩, ⟨rfl, hfields.2⟩⟩
    | withMeta h =>
      rw [eq_withMeta_left, eq_withMeta_right, eq_withMeta_left, eq_withMeta_right]
      exact hchild _ (by simp) _ h
    | reduced h =>
      rw [eq_reduced_left, eq_reduced_right, eq_reduced_left, eq_reduced_right]
      exact hchild _ (by simp) _ h

end Clean

end Value

end Clojurust

