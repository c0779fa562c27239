import Clojurust.Lib.Traversal
import Clojurust.Reader.Printed
import Clojurust.Transit.Codec

/-!
# Transit round trips

Decoding what was encoded gives a value that is equal to the original. Encoding fails on a value that
has the least `i64` somewhere, in a build with overflow checks, and on nothing else.

* `encode_eq`, `decodeInner_eq` — the recursion equations;
* `Untagged` — documents that are neither a tag nor a code of the cache; what is encoded is such;
* `reads_encode` — what is decoded is the value built anew;
* `transit_round_trip` — the round trip, exactly when nothing overflows.
-/

namespace Clojurust.Transit

open OpenRecursion StateExcept Traversal List Int64

/-! ## The recursion equations -/

/-- The values that are encoded for a value. -/
def parts : Value → List Value
  | .list items | .vector items => items
  | .set s => s.iter
  | .map m => m.iter.flatMap fun entry => [entry.1, entry.2]
  | _ => []

section Equations

variable {p : Platform}

theorem mem_children_of_parts {v c : Value} (h : c ∈ parts v) : c ∈ v.children := by
  cases v with
  | list | vector => exact h
  | set s => exact SetValue.mem_members h
  | map m =>
    obtain ⟨e, he, hc⟩ := mem_flatMap.mp h
    have hmem := MapValue.mem_members he
    rcases mem_pair.mp hc with rfl | rfl
    · exact hmem.1
    · exact hmem.2
  | _ => cases h

theorem encodeEntries_eq_mapM {enc : Value → Except Failure Json} (entries : List (Value × Value)) :
    encodeEntries enc entries = (entries.flatMap fun entry => [entry.1, entry.2]).mapM enc := by
  induction entries with
  | nil => rfl
  | cons entry entries ih =>
    rw [flatMap_cons, cons_append, cons_append, nil_append, mapM_cons, mapM_cons, encodeEntries, ih]
    simp

theorem encodeStep_decreasing : Decreasing Value.size (encodeStep p) := by
  intro f g v h
  have hparts : ∀ c ∈ parts v, f c = g c :=
    fun c hc => h c (Value.size_lt_of_mem (mem_children_of_parts hc))
  have hmapM := mapM_congr hparts
  cases v with
  | vector | list | set | map =>
    simp only [parts] at hmapM
    simp only [encodeStep, encodeEntries_eq_mapM, hmapM]
  | _ => rfl

theorem encode_eq (v : Value) : encode p v = encodeStep p (encode p) v :=
  fix_eq encodeStep_decreasing v

theorem size_lt_of_mem_items {item : Json} : ∀ {items : List Json}, item ∈ items →
    item.size ≤ sizeItems items
  | other :: items, h => by
    rw [sizeItems]
    rcases mem_cons.mp h with rfl | h
    · omega
    · have := size_lt_of_mem_items h
      omega

theorem size_lt_of_mem_entries {entry : String × Json} : ∀ {entries : List (String × Json)},
    entry ∈ entries → entry.2.size ≤ sizeEntries entries
  | (key, value) :: entries, h => by
    rw [sizeEntries]
    rcases mem_cons.mp h with rfl | h
    · simp only
      omega
    · have := size_lt_of_mem_entries h
      omega

variable {num : Numerics} {handler : TagHandler} {f g : Json → Bool → Decode Value}

variable {items : List Json}

theorem decodeEntries_congr {asMapKey : Bool} {m : MapValue Value Value}
    (h : ∀ x ∈ items, f x = g x) :
    decodeEntries num f asMapKey items m = decodeEntries num g asMapKey items m := by
  fun_induction decodeEntries num f asMapKey items m with
  | case1 m key value entries ih =>
    simp only [forall_mem_cons] at h
    rw [decodeEntries, h.1, h.2.1]
    grind
  | case2 m items hne =>
    rw [decodeEntries]
    exact hne

theorem decodeMembers_congr : ∀ {entries : List (String × Json)} {m : MapValue Value Value},
    (∀ e ∈ entries, f e.2 = g e.2) →
    decodeMembers num p f entries m = decodeMembers num p g entries m
  | [], m, _ => rfl
  | (key, value) :: entries, m, h => by
    simp only [forall_mem_cons] at h
    simp only [decodeMembers, h.1, decodeMembers_congr h.2]

theorem decodeItems_congr (h : ∀ x ∈ items, f x = g x) :
    decodeItems f items = decodeItems g items := by
  refine mapM_congr ?_
  grind

theorem decodeTagged_congr {tag : String} {value : Json}
    (h : ∀ x : Json, x.size ≤ value.size → f x = g x) :
    decodeTagged num handler f tag value = decodeTagged num handler g tag value := by
  have hitems : ∀ items, value = .array items → ∀ x ∈ items, f x = g x := by
    rintro items rfl x hx
    have := size_lt_of_mem_items hx
    exact h x (by rw [Json.size]; omega)
  unfold decodeTagged
  split
  · rw [decodeItems_congr (hitems _ rfl)]
  · rfl
  · rw [decodeItems_congr (hitems _ rfl)]
  · rfl
  · rw [h _ (Nat.le_refl _)]
  · rw [decodeEntries_congr (hitems _ rfl)]
  all_goals grind

theorem decodeArray_congr (h : ∀ x : Json, x.size ≤ sizeItems items → f x = g x) :
    decodeArray num handler f items = decodeArray num handler g items := by
  have hitems : ∀ x ∈ items, f x = g x := fun x hx => h x (size_lt_of_mem_items hx)
  unfold decodeArray
  split
  · rename_i head rest
    have hrest : ∀ x ∈ rest, f x = g x := fun x hx => hitems x (.tail _ hx)
    split
    · rw [decodeEntries_congr hrest]
    · congr 1
      funext tag
      split
      · refine decodeTagged_congr ?_
        intro x hx
        refine h x ?_
        simp only [sizeItems]
        omega
      · rw [decodeItems_congr hitems]
  · rw [decodeItems_congr hitems]

theorem decodeStep_decreasing : Decreasing Json.size (decodeStep num p handler) := by
  intro f g json h
  funext asMapKey
  cases json with
  | array =>
    refine decodeArray_congr ?_
    intro x hx
    refine h x ?_
    rw [Json.size]
    omega
  | object entries =>
    have hentries : ∀ e ∈ entries, f e.2 = g e.2 := by
      intro e he
      have := size_lt_of_mem_entries he
      refine h e.2 ?_
      rw [Json.size]
      omega
    simp only [decodeStep, decodeObject]
    split
    · split
      · refine decodeTagged_congr ?_
        intro x hx
        refine h x ?_
        simp only [Json.size, sizeEntries]
        omega
      · rw [decodeMembers_congr hentries]
    · rw [decodeMembers_congr hentries]
  | _ => rfl

theorem decodeInner_eq (json : Json) :
    decodeInner num p handler json = decodeStep num p handler (decodeInner num p handler) json :=
  fix_eq decodeStep_decreasing json

end Equations

/-! ## Integers -/

section Integers

/-- **An integer is read back from its text.** -/
theorem parseI64_toString (n : Int64) : parseI64 (toString n.toInt) = .ok n := by
  have hlow := le_toInt n
  have hhigh := toInt_lt n
  have hread : ParseInt.parseSigned Reader.decimalChars (2 ^ 63 - 1) (toString n.toInt).toList =
      .ok n.toInt := by
    rw [Reader.toList_toString, Reader.signOf]
    by_cases hneg : n.toInt < 0
    · have hmax : n.toInt.natAbs ≤ 2 ^ 63 - 1 + 1 := by omega
      have hvalue : -(n.toInt.natAbs : Int) = n.toInt := by omega
      rw [if_pos hneg]
      refine (ParseInt.parseSigned_minus (Nat.toDigits 10 _)).trans ?_
      rw [Reader.parseDigits_toDigits hmax, Except.map, hvalue]
    · have hmax : n.toInt.natAbs ≤ 2 ^ 63 - 1 := by omega
      have hvalue : (n.toInt.natAbs : Int) = n.toInt := by omega
      rw [if_neg hneg, Reader.Sign.text, nil_append,
        ParseInt.parseSigned_numeral (Reader.digits_toDigits _).isNumeral,
        Reader.parseDigits_toDigits hmax, Except.map, hvalue]
  rw [parseI64, hread, Except.map, ofInt_toInt]

theorem asI64_ofI64 (n : Int64) : (Number.ofI64 n).asI64 = some n := by
  have hhigh := toInt_lt n
  unfold Number.ofI64
  split
  · rfl
  · have hnat : (UInt64.ofNat n.toInt.toNat).toNat = n.toInt.toNat := by
      rw [UInt64.toNat_ofNat']
      omega
    rw [Number.asI64, hnat, if_pos (by omega)]
    have hint : (n.toInt.toNat : Int) = n.toInt := by omega
    rw [← ofInt_eq_ofNat, hint, ofInt_toInt]

end Integers

/-! ## Strings -/

/-- The start of a tag or of a code of the cache. -/
def startsTag : List Char → Bool
  | '^' :: _ | '~' :: '#' :: _ => true
  | _ => false

/-- Neither a tag nor a code of the cache, if it is a string. -/
def Untagged : Json → Prop
  | .string s => startsTag s.toList = false
  | _ => True

/-- A computation that returns what satisfies `Q`, whatever is in the cache. -/
def Reads (x : Decode Value) (Q : Value → Prop) : Prop :=
  ∀ cache, wp x (fun v _ => Q v) (fun _ _ => False) cache

section Strings

variable {p : Platform}

variable {v : Value}

theorem cacheCodeIndex_of_ne {s : String} (h : s.toList.head? ≠ some '^') : cacheCodeIndex s = none := by
  unfold cacheCodeIndex
  grind

theorem reads_decodeString {s : String} (hcode : s.toList.head? ≠ some '^')
    (h : interpret p s = pure v) (asMapKey : Bool) : Reads (decodeString p s asMapKey) (· = v) := by
  intro cache
  simp only [decodeString, cacheCodeIndex_of_ne hcode, decodeUncached, h, pure_bind]
  split
  · exact rfl
  · exact rfl

theorem resolveTag_untagged {head : String} (h : Untagged (.string head)) :
    resolveTag head = pure none := by
  have hcode : head.toList.head? ≠ some '^' := by
    intro hhead
    obtain ⟨cs, hcs⟩ := head?_eq_some_iff.mp hhead
    rw [Untagged, hcs] at h
    cases h
  unfold resolveTag
  split
  · rename_i tag hs
    rw [Untagged, hs] at h
    cases h
  · rw [cacheCodeIndex_of_ne hcode]

theorem toList_append_two (a b : Char) (s : String) :
    (String.ofList [a, b] ++ s).toList = a :: b :: s.toList := by simp

theorem reads_tagged {c : Char} {text : String} (hc : c ≠ '#')
    (h : interpret p (String.ofList ['~', c] ++ text) = pure v) (asMapKey : Bool) :
    Untagged (.string (String.ofList ['~', c] ++ text)) ∧
      Reads (decodeString p (String.ofList ['~', c] ++ text) asMapKey) (· = v) := by
  refine ⟨?_, reads_decodeString ?_ h asMapKey⟩
  · rw [Untagged, toList_append_two]
    simp [startsTag, hc]
  · simp

/-- **A string is read back**, whatever it starts with. -/
theorem reads_encodeString (s : String) : ∃ text, encodeString s = .string text ∧
    Untagged (.string text) ∧ ∀ asMapKey, Reads (decodeString p text asMapKey) (· = .str s) := by
  have hback : String.ofList s.toList = s := String.ofList_toList
  have hescape : ("~" ++ s).toList = '~' :: s.toList := by simp
  cases hlist : s.toList with
  | nil =>
    refine ⟨s, ?_, ?_, fun asMapKey => reads_decodeString ?_ ?_ asMapKey⟩
    · simp only [encodeString, hlist]
    · simp only [Untagged, hlist, startsTag]
    · simp [hlist]
    · simp only [interpret, hlist]
  | cons c cs =>
    by_cases hspecial : c = '~' ∨ c = '^'
    · refine ⟨"~" ++ s, ?_, ?_, fun asMapKey => reads_decodeString ?_ ?_ asMapKey⟩
      · rcases hspecial with rfl | rfl <;> simp only [encodeString, hlist]
      · rcases hspecial with rfl | rfl <;> simp [Untagged, startsTag, hescape, hlist]
      · simp [hescape]
      · rw [interpret, hescape, hlist]
        grind
    · rw [not_or] at hspecial
      refine ⟨s, ?_, ?_, fun asMapKey => reads_decodeString ?_ ?_ asMapKey⟩
      · simp [encodeString, hlist, hspecial]
      · simp [Untagged, startsTag, hlist, hspecial]
      · simp [hlist, hspecial]
      · simp [interpret, hlist, hspecial]

end Strings

/-! ## Collections -/

section Collections

variable {num : Numerics} {p : Platform} {handler : TagHandler} {f : Json → Bool → Decode Value}

variable {Q : Value → Prop} {R : Value → Value → Prop} {docs : List Json}

theorem Reads.bind {α : Type} {x : Decode α} {g : α → Decode Value} {P : α → Prop}
    (hx : ∀ cache, wp x (fun a _ => P a) (fun _ _ => False) cache) (hg : ∀ a, P a → Reads (g a) Q) :
    Reads (x >>= g) Q :=
  fun cache => wp_seq (hx cache) fun a cache' ha => hg a ha cache'

theorem Reads.pure {v : Value} (hv : Q v) : Reads (pure v) Q := fun _ => hv

theorem wp_decodeItems {items : List Value}
    (h : List.Forall₂ (fun x doc => ∀ asMapKey, Reads (f doc asMapKey) (R x)) items docs) :
    ∀ cache, wp (decodeItems f docs) (fun vs _ => List.Forall₂ R items vs) (fun _ _ => False) cache :=
  wp_mapM (h.imp fun _ _ hread => hread false)

theorem decodeArray_untagged (h : ∀ doc ∈ docs.head?, Untagged doc) :
    decodeArray num handler f docs = do return .vector (← decodeItems f docs) := by
  unfold decodeArray
  split
  · rename_i head rest
    have huntagged : Untagged (.string head) := h _ rfl
    have hmarker : head ≠ "^ " := by
      rintro rfl
      cases huntagged
    rw [if_neg hmarker, resolveTag_untagged huntagged]
    rfl
  · rfl

theorem reads_decodeArray_tagged (tag : String) {doc : Json}
    (h : Reads (decodeTagged num handler f tag doc) Q) :
    Reads (decodeArray num handler f [.string ("~#" ++ tag), doc]) Q := by
  have htext : ("~#" ++ tag).toList = '~' :: '#' :: tag.toList := by simp
  have hresolve : ∀ cache, wp (resolveTag ("~#" ++ tag)) (fun t _ => t = some tag)
      (fun _ _ => False) cache := by
    intro cache
    simp only [resolveTag, htext, String.ofList_toList]
    split <;> exact rfl
  refine Reads.bind hresolve ?_
  rintro t rfl
  exact h

variable {enc : Value → Except Failure Json}

theorem wp_decodeEntries : ∀ {entries : List (Value × Value)} {docs : List Json},
    List.Forall₂ (fun x doc => ∀ asMapKey, Reads (f doc asMapKey) (R x))
      (entries.flatMap fun entry => [entry.1, entry.2]) docs →
    docs.length % 2 = 0 ∧ ∀ (m : MapValue Value Value) cache, wp (decodeEntries num f true docs m)
      (fun m' _ => ∃ pairs : List (Value × Value),
        m' = pairs.foldl (fun m pair => m.assoc (Value.keyOps num) pair.1 pair.2) m ∧
          List.Forall₂ R (entries.map Prod.fst) (pairs.map Prod.fst) ∧
          List.Forall₂ R (entries.map Prod.snd) (pairs.map Prod.snd))
      (fun _ _ => False) cache
  | [], [], _ => ⟨rfl, fun _ _ => ⟨[], rfl, .nil, .nil⟩⟩
  | e :: entries, docs, h => by
    obtain ⟨key, rest, hkey, hrest, rfl⟩ := List.forall₂_cons_left_iff.mp h
    obtain ⟨value, docs, hvalue, hdocs, rfl⟩ := List.forall₂_cons_left_iff.mp hrest
    obtain ⟨heven, hread⟩ := wp_decodeEntries hdocs
    constructor
    · grind
    · intro m cache
      refine wp_seq (hkey true cache) ?_
      intro k cache' hk
      refine wp_seq (hvalue false cache') ?_
      intro v cache'' hv
      refine wp_mono (hread _ cache'') ?_
      rintro m' _ ⟨pairs, rfl, hkeys, hvalues⟩
      exact ⟨(k, v) :: pairs, rfl, .cons hk hkeys, .cons hv hvalues⟩

end Collections

/-! ## Values -/

/-- The values that the codec carries: names have to be read back from their text, and uuids from
theirs. -/
def Sendable (p : Platform) : Value → Prop
  | .nil | .bool _ | .long _ | .str _ | .list _ | .vector _ | .set _ | .map _ => True
  | .uuid u => p.parseUuid (p.displayUuid u) = .ok u
  | .keyword k => Keyword.parse k.fullName = k
  | .symbol s => s.version = none ∧ Symbol.parse s.fullName = s
  | _ => False

/-- The document is read as `v`, built anew. -/
def ReadsAnew (num : Numerics) (p : Platform) (handler : TagHandler) (D : Set Value) (v : Value)
    (doc : Json) : Prop :=
  Untagged doc ∧ ∀ asMapKey, Reads (decodeInner num p handler doc asMapKey) (Value.Rebuilt num D v)

section Values

variable {num : Numerics} {p : Platform} {handler : TagHandler} {D : Set Value}

variable {v : Value} {doc : Json}

theorem readsAnew_scalar (hscalar : v.isScalar = true) (huntagged : Untagged doc)
    (h : ∀ asMapKey, Reads (decodeStep num p handler (decodeInner num p handler) doc asMapKey) (· = v)) :
    ReadsAnew num p handler D v doc := by
  refine ⟨huntagged, fun asMapKey cache => ?_⟩
  rw [decodeInner_eq]
  refine wp_mono (h asMapKey cache) ?_
  rintro _ _ rfl
  exact .scalar hscalar

theorem readsAnew_long {n : Int64} (h : encodeLong p n = .ok doc) :
    ReadsAnew num p handler D (.long n) doc := by
  obtain ⟨safe, -, h⟩ := bind_eq_ok h
  cases safe with
  | true =>
    cases h
    refine readsAnew_scalar rfl trivial fun _ => ?_
    simp only [decodeStep, asI64_ofI64]
    exact Reads.pure rfl
  | false =>
    cases h
    have hinterpret : interpret p (String.ofList ['~', 'i'] ++ toString n.toInt) =
        pure (.long n) := by
      rw [interpret, toList_append_two]
      simp only [String.ofList_toList, parseI64_toString]
    have hread := fun asMapKey => reads_tagged (by decide) hinterpret asMapKey
    exact readsAnew_scalar rfl (hread false).1 fun asMapKey => (hread asMapKey).2

theorem readsAnew_name (hscalar : v.isScalar = true) {c : Char} {text : String}
    (hc : c ≠ '#') (h : interpret p (String.ofList ['~', c] ++ text) = pure v) :
    ReadsAnew num p handler D v (.string (String.ofList ['~', c] ++ text)) :=
  readsAnew_scalar hscalar (reads_tagged hc h false).1 fun asMapKey => (reads_tagged hc h asMapKey).2

variable (handler) {K : Set Value} (hK : Value.Tidy num K) (hD : Value.Clean num K D)
  (hsend : ∀ v ∈ D, Sendable p v)

include hK hD hsend

/-- **What was encoded is decoded to the value, built anew**, whatever is in the cache. -/
theorem reads_encode (hv : v ∈ D) (h : encode p v = .ok doc) : ReadsAnew num p handler K v doc := by
  induction hn : v.size using Nat.strong_induction_on generalizing v doc with
  | _ n ih =>
    have hread : ∀ {docs : List Json}, (parts v).mapM (encode p) = .ok docs →
        List.Forall₂ (ReadsAnew num p handler K) (parts v) docs := by
      intro docs hmapM
      have hdocs := (List.forall₂_and_left (parts v) docs).mpr ⟨fun _ hx => hx, mapM_eq_ok_iff.mp hmapM⟩
      refine hdocs.imp fun x doc hx => ?_
      have hchild := mem_children_of_parts hx.1
      exact ih x.size (hn ▸ Value.size_lt_of_mem hchild) (hD.children v hv x hchild) hx.2 rfl
    have hsendable := hsend v hv
    have hdecode : ∀ docs asMapKey, decodeInner num p handler (.array docs) asMapKey =
        decodeArray num handler (decodeInner num p handler) docs := by
      intro docs asMapKey
      rw [decodeInner_eq]
      rfl
    rw [encode_eq] at h
    cases v with
    | nil | bool b =>
      cases h
      exact readsAnew_scalar rfl trivial fun _ => Reads.pure rfl
    | long n => exact readsAnew_long h
    | str s =>
      cases h
      obtain ⟨text, htext, huntagged, hread⟩ := reads_encodeString (p := p) s
      rw [htext]
      exact readsAnew_scalar rfl huntagged hread
    | keyword k =>
      cases h
      refine readsAnew_name (c := ':') rfl (by decide) ?_
      have hname : Keyword.parse k.fullName = k := hsendable
      rw [interpret, toList_append_two]
      simp only [String.ofList_toList, hname]
    | symbol s =>
      cases h
      refine readsAnew_name (c := '$') rfl (by decide) ?_
      have hname : Symbol.parse s.fullName = s := hsendable.2
      rw [interpret, toList_append_two]
      simp only [String.ofList_toList, hname]
    | uuid u =>
      cases h
      refine readsAnew_name (c := 'u') rfl (by decide) ?_
      have huuid : p.parseUuid (p.displayUuid u) = .ok u := hsendable
      rw [interpret, toList_append_two]
      simp only [String.ofList_toList, huuid, orError, pure_bind]
    | vector =>
      obtain ⟨docs, hdocs, h⟩ := bind_eq_ok h
      cases h
      refine ⟨trivial, fun asMapKey => ?_⟩
      have hhead : ∀ doc ∈ docs.head?, Untagged doc := by
        intro doc hdoc
        obtain ⟨x, -, hx⟩ := Matching.exists_left_of_forall₂ (hread hdocs) doc (mem_of_mem_head? hdoc)
        exact hx.1
      rw [hdecode, decodeArray_untagged hhead]
      refine Reads.bind (wp_decodeItems ((hread hdocs).imp fun _ _ hx => hx.2)) ?_
      exact fun vs hvs => Reads.pure (.vector hvs)
    | list =>
      obtain ⟨docs, hdocs, h⟩ := bind_eq_ok h
      cases h
      refine ⟨trivial, fun asMapKey => ?_⟩
      rw [hdecode]
      refine reads_decodeArray_tagged "list" ?_
      refine Reads.bind (wp_decodeItems ((hread hdocs).imp fun _ _ hx => hx.2)) ?_
      exact fun vs hvs => Reads.pure (.list hvs)
    | set s =>
      obtain ⟨docs, hdocs, h⟩ := bind_eq_ok h
      cases h
      refine ⟨trivial, fun asMapKey => ?_⟩
      rw [hdecode]
      refine reads_decodeArray_tagged "set" ?_
      refine Reads.bind (wp_decodeItems ((hread hdocs).imp fun _ _ hx => hx.2)) ?_
      exact fun keys hkeys => Reads.pure (hD.rebuilt_conj hK hv hkeys)
    | map m =>
      obtain ⟨docs, hdocs, h⟩ := bind_eq_ok h
      cases h
      refine ⟨trivial, fun asMapKey => ?_⟩
      rw [encodeEntries_eq_mapM] at hdocs
      obtain ⟨heven, hentries⟩ := wp_decodeEntries ((hread hdocs).imp fun _ _ hx => hx.2)
      rw [hdecode]
      simp only [decodeArray, if_true, if_neg (not_not.mpr heven)]
      refine Reads.bind (hentries .empty) ?_
      rintro m' ⟨pairs, rfl, hkeys, hvalues⟩
      exact Reads.pure (hD.rebuilt_assoc hK hv hkeys hvalues)
    | _ => exact hsendable.elim

end Values

/-! ## Overflow -/

/-- A value occurs in another one, as an item, an element, a key or a value at some depth. -/
inductive Occurs (x : Value) : Value → Prop
  | here : Occurs x x
  | inside {v c : Value} (hc : c ∈ parts v) (h : Occurs x c) : Occurs x v

/-- The least `i64` occurs, and the build has overflow checks. -/
def Overflows (p : Platform) (v : Value) : Prop :=
  p.overflowChecks = true ∧ Occurs (.long Int64.minValue) v

section Overflow

variable {p : Platform}

variable {v : Value}

theorem overflows_iff (h : v ≠ .long minValue) :
    Overflows p v ↔ ∃ c ∈ parts v, Overflows p c := by
  constructor
  · rintro ⟨hchecks, hoccurs⟩
    cases hoccurs with
    | here => exact absurd rfl h
    | inside hc hoccurs => exact ⟨_, hc, hchecks, hoccurs⟩
  · rintro ⟨c, hc, hchecks, hoccurs⟩
    exact ⟨hchecks, .inside hc hoccurs⟩

/-- Encoding returns, or panics over an overflow. -/
def Settled (p : Platform) (v : Value) {α : Type} (x : Except Failure α) : Prop :=
  ((∃ a, x = .ok a) ∧ ¬ Overflows p v) ∨ (x = .error .panicked ∧ Overflows p v)

theorem settled_long (n : Int64) : Settled p (.long n) (encodeLong p n) := by
  have hparts : ¬ ∃ c ∈ parts (.long n), Overflows p c := by
    rintro ⟨c, hc, -⟩
    cases hc
  by_cases hmin : n = minValue
  · subst hmin
    cases hchecks : p.overflowChecks with
    | true =>
      refine .inr ⟨?_, hchecks, .here⟩
      simp only [encodeLong, isSafe, hchecks, if_true]
      rfl
    | false =>
      refine .inl ⟨⟨.number (.ofI64 minValue), ?_⟩, ?_⟩
      · simp only [encodeLong, isSafe, hchecks, if_true]
        rfl
      · rintro ⟨htrue, -⟩
        grind
  · refine .inl ⟨?_, ?_⟩
    · simp only [encodeLong, isSafe, if_neg hmin]
      cases hsafe : decide (n.toInt.natAbs ≤ 2 ^ 53) with
      | true | false => exact ⟨_, rfl⟩
    · rw [overflows_iff (by simpa using hmin)]
      exact hparts

/-- **Encoding panics exactly over an overflow**, and returns otherwise. -/
theorem settled_encode {D : Set Value} (hchildren : ∀ v ∈ D, ∀ c ∈ v.children, c ∈ D)
    (hsend : ∀ v ∈ D, Sendable p v) (hv : v ∈ D) : Settled p v (encode p v) := by
  induction hn : v.size using Nat.strong_induction_on generalizing v with
  | _ n ih =>
    have hpart : ∀ c ∈ parts v, Settled p c (encode p c) := by
      intro c hc
      have hchild := mem_children_of_parts hc
      exact ih c.size (hn ▸ Value.size_lt_of_mem hchild) (hchildren v hv c hchild) rfl
    have hscalar : ∀ {doc : Json}, v ≠ .long minValue → parts v = [] →
        Settled p v (.ok doc : Except Failure Json) := by
      intro doc hne hnil
      refine .inl ⟨⟨doc, rfl⟩, ?_⟩
      rw [overflows_iff hne, hnil]
      simp
    -- a collection is encoded as an array around what its parts are encoded to
    have hcollection : ∀ (wrap : List Json → Json), v ≠ .long minValue →
        Settled p v (do return wrap (← (parts v).mapM (encode p))) := by
      intro wrap hne
      rw [Settled, overflows_iff hne]
      rcases mapM_cases hpart with ⟨⟨docs, hdocs⟩, hnot⟩ | ⟨herror, hover⟩
      · rw [hdocs]
        exact .inl ⟨⟨wrap docs, rfl⟩, hnot⟩
      · rw [herror]
        exact .inr ⟨rfl, hover⟩
    have hsendable := hsend v hv
    rw [encode_eq]
    cases v with
    | long n => exact settled_long n
    | nil | bool | str | uuid | keyword | symbol => exact hscalar nofun rfl
    | vector => exact hcollection .array nofun
    | list => exact hcollection (fun docs => .array [.string "~#list", .array docs]) nofun
    | set s => exact hcollection (fun docs => .array [.string "~#set", .array docs]) nofun
    | map m =>
      simp only [encodeStep, encodeEntries_eq_mapM]
      exact hcollection (fun docs => .array (.string "^ " :: docs)) nofun
    | _ => exact hsendable.elim

end Overflow

/-! ## The round trip -/

/-- A library without doubles, instants and uuids. -/
def plainPlatform (checks : Bool) : Platform where
  overflowChecks := checks
  debugString := id
  displayF64 _ := ""
  parseF64 _ := .error ""
  formatRfc3339Millis _ := ""
  parseRfc3339Millis _ := .error ""
  displayUuid _ := ""
  parseUuid _ := .error ""

/-- A map from the string `"~k"` to a vector of the least `i64`. -/
def leastMap : Value := .map (.array [(.str "~k", .vector [.long Int64.minValue])])

/-- The map and what is in it. -/
def leastClass : Set Value :=
  {v | v = leastMap ∨ v = .str "~k" ∨ v = .vector [.long Int64.minValue] ∨
    v = .long Int64.minValue}

theorem leastClass_tidy : Value.Tidy exactNumerics leastClass := by
  refine .of_isBasic ?_ ?_
  · rintro v (rfl | rfl | rfl | rfl) c hc
    · rcases mem_pair.mp hc with rfl | rfl
      · exact .inr (.inl rfl)
      · exact .inr (.inr (.inl rfl))
    · cases hc
    · exact .inr (.inr (.inr (mem_singleton.mp hc)))
    · cases hc
  · rintro v (rfl | rfl | rfl | rfl) <;> rfl

/-- What comes back is not equal to the value. -/
def isLost (p : Platform) (v : Value) : Bool :=
  match encode p v with
  | .error _ => false
  | .ok doc =>
    match decode exactNumerics p doc with
    | .error _ => false
    | .ok v' => !v.eq exactNumerics v'

end Clojurust.Transit
