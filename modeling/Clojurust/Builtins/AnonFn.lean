import Clojurust.Builtins.FormValue

/-!
# Anonymous functions

What `expand_anon_fn` (`expandAnonFn`) makes of the symbols of `#(…)`.

* `meant` — what a symbol of the body is written for: an argument, the rest, or what it is outside;
* `Means` — what a symbol is for in a function with given parameters;
* `symbolsOf` — the symbols of a body from left to right, those of an inner `#(…)` marked;
* `Faithful` — the function has the parameters that the body uses, and every symbol of its body is for
  what it was written for;
* `Clean` — the bodies whose `%` symbols can be read and that do not name a generated parameter;
* `anon_fn_faithful_iff` — the function is faithful exactly for these.

Symbols are judged by their text wherever they stand, quoted ones included; what the forms evaluate to and
the errors of `fn*` itself are left out.
-/

namespace Clojurust.Builtins

open Reader List

/-! ## Symbols and what they are for -/

inductive Meaning where
  /-- counted from 1 -/
  | arg (n : Nat)
  | rest
  | outer (s : String)

def startsPct (s : String) : Bool := s.toList.head? = some '%'

/-- A symbol that starts with `%` is for an argument, or else for nothing. -/
def meant (s : String) : Option Meaning :=
  match s.toList with
  | ['%'] => some (.arg 1)
  | ['%', '&'] => some .rest
  | '%' :: position =>
    if position.all Char.isDigit = true ∧ 1 ≤ ofDigits 10 position then some (.arg (ofDigits 10 position))
    else none
  | _ => some (.outer s)

/-- The symbol is written for something, an argument with a number that can be read. -/
def Reads (s : String) (m : Meaning) : Prop := meant s = some m ∧ ∀ n, m = .arg n → n < 2 ^ 64

/-- The parameters before `&`. -/
def fixedParams (params : List String) : List String := params.takeWhile (· ≠ "&")

def Means (params : List String) (s : String) : Meaning → Prop
  | .arg n => 1 ≤ n ∧ (fixedParams params)[n - 1]? = some s
  | .rest => params.drop (fixedParams params).length = ["&", s]
  | .outer t => t = s ∧ s ∉ fixedParams params ∧ params.drop (fixedParams params).length ≠ ["&", s]

mutual

def symbolsOf : List Form → List (Bool × String)
  | [] => []
  | form :: forms => symbolsIn form ++ symbolsOf forms

def symbolsIn : Form → List (Bool × String)
  | .mk (.symbol s) _ => [(false, s)]
  | .mk (.list forms) _ | .mk (.vector forms) _ | .mk (.set forms) _ | .mk (.map forms) _
  | .mk (.readerCond _ forms) _ => symbolsOf forms
  | .mk (.quote inner) _ | .mk (.syntaxQuote inner) _ | .mk (.unquote inner) _
  | .mk (.unquoteSplice inner) _ | .mk (.deref inner) _ | .mk (.var inner) _
  | .mk (.taggedLiteral _ inner) _ => symbolsIn inner
  | .mk (.metadata data inner) _ => symbolsIn data ++ symbolsIn inner
  | .mk (.anonFn forms) _ => (symbolsOf forms).map fun x => (true, x.2)
  | _ => []

end

/-- A symbol of the body and the one in its place are for the same. The `%` symbols of an inner `#(…)`
are left to it. -/
def Agree (params : List String) (x y : Bool × String) : Prop :=
  if x.1 = true ∧ startsPct x.2 = true then y = x
  else y.1 = x.1 ∧ ∃ m, meant x.2 = some m ∧ Means params y.2 m

/-- The body refers to an argument or to the rest. -/
def Uses (body : List Form) (m : Meaning) : Prop := ∃ s, (false, s) ∈ symbolsOf body ∧ meant s = some m

structure Faithful (body : List Form) (params : List String) (forms : List Form) : Prop where
  /-- As many positional parameters as the largest position. -/
  covers : ∀ n, Uses body (.arg n) → n ≤ (fixedParams params).length
  exact : (fixedParams params).length = 0 ∨ Uses body (.arg (fixedParams params).length)
  rest : "&" ∈ params ↔ Uses body .rest
  symbols : List.Forall₂ (Agree params) (symbolsOf body) (symbolsOf forms)

/-- Every `%` symbol is for an argument whose number is in range. No symbol, also of an inner `#(…)`, is
`p__1` to `p__n` for the largest position `n` that is used, nor `rest__` if `%&` is used. -/
structure Clean (body : List Form) : Prop where
  reads : ∀ s, (false, s) ∈ symbolsOf body → ∃ m, Reads s m
  args : ∀ n, Uses body (.arg n) → ∀ k, 1 ≤ k → k ≤ n → ∀ x ∈ symbolsOf body, x.2 ≠ "p__" ++ toString k
  rest : Uses body .rest → ∀ x ∈ symbolsOf body, x.2 ≠ "rest__"

/-! ## The two traversals -/

def renamed (x : Bool × String) : Bool × String := (x.1, if x.1 then x.2 else rewritePctSymbol x.2)

/-- The symbols of the body itself. -/
def own (xs : List (Bool × String)) : List String := (xs.filter fun x => !x.1).map Prod.snd

theorem own_append (xs ys : List (Bool × String)) : own (xs ++ ys) = own xs ++ own ys := by
  simp [own]

theorem mem_own {xs : List (Bool × String)} {s : String} : s ∈ own xs ↔ (false, s) ∈ xs := by
  simp [own]

mutual

theorem symbolsOf_spec (span : Span) : ∀ forms : List Form,
    symbolsOf (rewritePctRefs span forms) = (symbolsOf forms).map renamed ∧
      ∀ refs, findPctRefs forms refs = (own (symbolsOf forms)).foldl PctRefs.see refs
  | [] => ⟨rfl, fun _ => rfl⟩
  | form :: forms => by
    obtain ⟨hform, hrefs⟩ := symbolsIn_spec span form
    obtain ⟨hforms, hrefs'⟩ := symbolsOf_spec span forms
    refine ⟨by rw [rewritePctRefs, symbolsOf, symbolsOf, map_append, hform, hforms], fun refs => ?_⟩
    rw [findPctRefs, hrefs, hrefs', symbolsOf, own_append, foldl_append]

theorem symbolsIn_spec (span : Span) : ∀ form : Form,
    symbolsIn (rewritePctForm span form) = (symbolsIn form).map renamed ∧
      ∀ refs, findPctRefsForm form refs = (own (symbolsIn form)).foldl PctRefs.see refs
  | .mk kind _ => by
    cases kind with
    | list forms | vector forms | set forms | map forms | readerCond _ forms =>
      simpa only [rewritePctForm, findPctRefsForm, symbolsIn] using symbolsOf_spec span forms
    | quote inner | syntaxQuote inner | unquote inner | unquoteSplice inner | deref inner
    | var inner | taggedLiteral _ inner =>
      simpa only [rewritePctForm, findPctRefsForm, symbolsIn] using symbolsIn_spec span inner
    | metadata data inner =>
      obtain ⟨hdata, hrefs⟩ := symbolsIn_spec span data
      obtain ⟨hinner, hrefs'⟩ := symbolsIn_spec span inner
      simp only [rewritePctForm, findPctRefsForm, symbolsIn, map_append, own_append, foldl_append,
        hdata, hinner, hrefs, hrefs', true_and, implies_true]
    | anonFn =>
      simp [rewritePctForm, findPctRefsForm, symbolsIn, renamed, own, filter_map, Function.comp_def]
    | _ => exact ⟨rfl, fun _ => rfl⟩

end

/-! ## Single symbols -/

variable {s : String} {m : Meaning} {refs : PctRefs} {params : List String}

def Meaning.name : Meaning → String
  | .arg n => "p__" ++ toString n
  | .rest => "rest__"
  | .outer s => s

def Meaning.seen (refs : PctRefs) : Meaning → PctRefs
  | .arg n => { refs with maxPos := max refs.maxPos n }
  | .rest => { refs with hasRest := true }
  | .outer _ => refs

theorem parseUsize_digits {position : List Char} (h : Digits position)
    (hn : ofDigits 10 position < 2 ^ 64) : parseUsize position = some (ofDigits 10 position) := by
  rw [parseUsize, ParseInt.parseUnsigned_numeral h.isNumeral, h.value_eq, if_pos (by omega)]
  rfl

theorem parseUsize_lt {position : List Char} {n : Nat} (h : parseUsize position = some n) : n < 2 ^ 64 := by
  rw [parseUsize] at h
  cases hread : ParseInt.parseUnsigned decimalChars (2 ^ 64 - 1) position with
  | error =>
    rw [hread] at h
    cases h
  | ok m =>
    have hle := ParseInt.parseUnsigned_le hread
    rw [hread] at h
    cases h
    omega

/-- The cases that both traversals distinguish. -/
theorem Reads.cases (h : Reads s m) : ((s = "%" ∨ s = "%1") ∧ m = .arg 1) ∨ (s = "%&" ∧ m = .rest) ∨
    ((s ≠ "%" ∧ s ≠ "%1" ∧ s ≠ "%&") ∧
      ((∃ position n, s.toList = '%' :: position ∧ parseUsize position = some n ∧ m = .arg n) ∨
        ((∀ position, s.toList ≠ '%' :: position) ∧ m = .outer s))) := by
  obtain ⟨h, hn⟩ := h
  by_cases hone : s = "%" ∨ s = "%1"
  · refine .inl ⟨hone, ?_⟩
    rcases hone with rfl | rfl
    · exact Option.some.inj (h.symm.trans rfl)
    · exact Option.some.inj (h.symm.trans rfl)
  by_cases hrest : s = "%&"
  · subst hrest
    exact .inr (.inl ⟨rfl, Option.some.inj (h.symm.trans rfl)⟩)
  rw [not_or] at hone
  refine .inr (.inr ⟨⟨hone.1, hone.2, hrest⟩, ?_⟩)
  unfold meant at h
  split at h
  · exact absurd (String.toList_inj.mp ‹_›) hone.1
  · exact absurd (String.toList_inj.mp ‹_›) hrest
  · rename_i position hne _ hs
    split at h
    · rename_i hpos
      cases h
      have hd : Digits position := ⟨fun hnil => hne hnil, all_eq_true.mp hpos.1⟩
      exact .inl ⟨position, _, hs, parseUsize_digits hd (hn _ rfl), rfl⟩
    · cases h
  · rename_i hne
    cases h
    exact .inr ⟨hne, rfl⟩

theorem Reads.rewrite (h : Reads s m) : rewritePctSymbol s = m.name := by
  rcases h.cases with ⟨rfl | rfl, rfl⟩ | ⟨rfl, rfl⟩ | ⟨⟨h1, h2, h3⟩, ⟨position, n, hs, hread, rfl⟩ | ⟨hs, rfl⟩⟩
  · rfl
  · rfl
  · rfl
  · simp only [rewritePctSymbol, h1, h2, h3, or_self, if_false, hs, hread, Meaning.name]
  · simp only [rewritePctSymbol, h1, h2, h3, or_self, if_false, Meaning.name]

theorem Reads.see (h : Reads s m) : refs.see s = m.seen refs := by
  rcases h.cases with ⟨hs, rfl⟩ | ⟨rfl, rfl⟩ | ⟨⟨h1, h2, h3⟩, ⟨position, n, hs, hread, rfl⟩ | ⟨hs, rfl⟩⟩
  · by_cases hpos : refs.maxPos < 1
    · rw [PctRefs.see, if_pos ⟨hs, hpos⟩, Meaning.seen, Nat.max_eq_right (by omega)]
    · have hmax : max refs.maxPos 1 = refs.maxPos := Nat.max_eq_left (by omega)
      have hnil : parseUsize [] = none := rfl
      have hread : parseUsize ['1'] = some 1 := rfl
      rcases hs with rfl | rfl <;> simp [PctRefs.see, hpos, hmax, hnil, hread, Meaning.seen]
  · rfl
  · simp only [PctRefs.see, h1, h2, h3, or_self, false_and, if_false, hs, hread, Meaning.seen]
    split
    · rw [Nat.max_eq_right (by omega)]
    · rw [Nat.max_eq_left (by omega)]
  · simp only [PctRefs.see, h1, h2, h3, or_self, false_and, if_false, Meaning.seen]

theorem one_le_of_meant {n : Nat} (h : meant s = some (.arg n)) : 1 ≤ n := by
  unfold meant at h
  grind

theorem meant_eq_outer {t : String} : meant s = some (.outer t) ↔ startsPct s = false ∧ t = s := by
  unfold meant startsPct
  split <;> grind [List.head?_eq_some_iff]

/-! ## The references and the parameters -/

theorem see_maxPos_lt (h : refs.maxPos < 2 ^ 64) : (refs.see s).maxPos < 2 ^ 64 := by
  unfold PctRefs.see
  split
  · exact Nat.one_lt_two_pow (by omega)
  split
  · exact h
  split
  · split
    · split
      · exact parseUsize_lt ‹_›
      · exact h
    · exact h
  · exact h

/-- What the first traversal collects of symbols that can be read. -/
theorem foldl_see (ss : List String) (h : ∀ s ∈ ss, ∃ m, Reads s m) :
    let refs := ss.foldl PctRefs.see ⟨0, false⟩
    (refs.hasRest = true ↔ ∃ s ∈ ss, meant s = some .rest) ∧
      (∀ s ∈ ss, ∀ n, meant s = some (.arg n) → n ≤ refs.maxPos) ∧
      (refs.maxPos = 0 ∨ ∃ s ∈ ss, meant s = some (.arg refs.maxPos)) := by
  induction ss using List.reverseRecOn with
  | nil => simp
  | append_singleton ss s ih =>
    obtain ⟨hrest, hmax, hused⟩ := ih fun t ht => h t (mem_append_left _ ht)
    obtain ⟨m, hm⟩ := h s (by simp)
    have hmeant := hm.1
    simp only [foldl_append, foldl_cons, foldl_nil, hm.see]
    cases m <;> grind [Meaning.seen]

theorem param_ne (n : Nat) : "p__" ++ toString n ≠ "&" := by
  intro h
  have htext := congrArg String.toList h
  simp at htext

theorem fixedParams_anonParams (refs : PctRefs) : fixedParams (anonParams refs) =
    (List.range' 1 refs.maxPos).map fun i => "p__" ++ toString i := by
  unfold fixedParams anonParams
  rw [takeWhile_append_of_pos]
  · split <;> simp
  · simp only [mem_map, decide_eq_true_eq]
    rintro _ ⟨n, -, rfl⟩
    exact param_ne n

theorem drop_anonParams (refs : PctRefs) : (anonParams refs).drop (fixedParams (anonParams refs)).length =
    if refs.hasRest then ["&", "rest__"] else [] := by
  rw [fixedParams_anonParams, anonParams, drop_left]

/-- What the parameters of the function make of it. -/
def Meaning.Bound (refs : PctRefs) : Meaning → Prop
  | .arg n => 1 ≤ n ∧ n ≤ refs.maxPos
  | .rest => refs.hasRest = true
  | .outer s => s ∈ anonParams refs → s = "&"

theorem mem_anonParams : s ∈ anonParams refs ↔ s ∈ fixedParams (anonParams refs) ∨
    s ∈ (anonParams refs).drop (fixedParams (anonParams refs)).length := by
  rw [fixedParams_anonParams, anonParams, drop_left, mem_append]

theorem mem_fixedParams_anonParams : s ∈ fixedParams (anonParams refs) ↔
    ∃ k, 1 ≤ k ∧ k ≤ refs.maxPos ∧ s = "p__" ++ toString k := by
  rw [fixedParams_anonParams, mem_map]
  refine exists_congr fun k => ?_
  rw [mem_range'_1, and_assoc, eq_comm, Nat.add_comm, Nat.lt_succ_iff]

theorem means_anonParams : Means (anonParams refs) s m ↔ s = m.name ∧ m.Bound refs := by
  cases m with
  | arg n =>
    rw [Means, fixedParams_anonParams, getElem?_map, Option.map_eq_some_iff, Meaning.name, Meaning.Bound]
    constructor
    · rintro ⟨hn, k, hk, rfl⟩
      obtain ⟨hlen, rfl⟩ := List.getElem?_eq_some_iff.mp hk
      rw [length_range'] at hlen
      rw [getElem_range', Nat.one_mul, Nat.add_sub_cancel' hn]
      exact ⟨rfl, hn, by omega⟩
    · rintro ⟨rfl, hn, hmax⟩
      refine ⟨hn, n, ?_, rfl⟩
      rw [getElem?_range' (by omega), Nat.one_mul, Nat.add_sub_cancel' hn]
  | rest =>
    rw [Means, drop_anonParams, Meaning.name, Meaning.Bound]
    cases refs.hasRest with
    | false => simp
    | true => simp [eq_comm]
  | outer t =>
    rw [Means, drop_anonParams, Meaning.name, Meaning.Bound, eq_comm]
    refine and_congr_right ?_
    rintro rfl
    rw [mem_anonParams, drop_anonParams]
    have hamp : s ∈ fixedParams (anonParams refs) → s ≠ "&" := by
      rw [mem_fixedParams_anonParams]
      rintro ⟨k, -, -, rfl⟩
      exact param_ne k
    cases refs.hasRest with
    | false =>
      simp only [Bool.false_eq_true, if_false, not_mem_nil, or_false, ne_eq, reduceCtorEq, not_false_eq_true,
        and_true]
      exact ⟨fun hfixed hmem => absurd hmem hfixed, fun hfree hmem => hamp hmem (hfree hmem)⟩
    | true =>
      -- of the two last parameters only `&` is no name
      simp only [if_true, mem_cons, not_mem_nil, or_false, ne_eq, cons.injEq, and_true, true_and]
      constructor
      · rintro ⟨hfixed, hrest⟩ (hmem | heq | heq)
        · exact absurd hmem hfixed
        · exact heq
        · exact absurd heq.symm hrest
      · intro hfree
        refine ⟨fun hmem => hamp hmem (hfree (.inl hmem)), ?_⟩
        rintro rfl
        exact absurd (hfree (.inr (.inr rfl))) (by decide)

/-! ## The expansion -/

section Expansion

variable {body : List Form} {span : Span}

/-- The references of a body. -/
def refsOf (body : List Form) : PctRefs := findPctRefs body ⟨0, false⟩

theorem refsOf_eq (body : List Form) : refsOf body = (own (symbolsOf body)).foldl PctRefs.see ⟨0, false⟩ :=
  (symbolsOf_spec ⟨0, 0, 0, 0⟩ body).2 _

theorem agree_renamed (x : Bool × String) : Agree (anonParams refs) x (renamed x) ↔
    if x.1 then startsPct x.2 = false → (Meaning.outer x.2).Bound refs
    else ∃ m, meant x.2 = some m ∧ rewritePctSymbol x.2 = m.name ∧ m.Bound refs := by
  obtain ⟨inner, s⟩ := x
  cases inner with
  | false => simp [Agree, renamed, means_anonParams]
  | true =>
    cases hpct : startsPct s with
    | false =>
      have hs := meant_eq_outer.mpr ⟨hpct, rfl⟩
      simp [Agree, renamed, means_anonParams, hpct, hs, Meaning.name]
    | true => simp [Agree, renamed, hpct]

theorem forall₂_agree : Forall₂ (Agree params) (symbolsOf body) (symbolsOf (rewritePctRefs span body)) ↔
    ∀ x ∈ symbolsOf body, Agree params x (renamed x) := by
  rw [(symbolsOf_spec span body).1, forall₂_map_right_iff, forall₂_same]

theorem refsOf_maxPos_lt (body : List Form) : (refsOf body).maxPos < 2 ^ 64 := by
  rw [refsOf_eq]
  exact foldlRecOn (motive := fun refs : PctRefs => refs.maxPos < 2 ^ 64) _ _ (by decide)
    fun _ h _ _ => see_maxPos_lt h

theorem length_fixedParams : (fixedParams (anonParams refs)).length = refs.maxPos := by
  rw [fixedParams_anonParams, length_map, length_range']

theorem amp_mem_anonParams : "&" ∈ anonParams refs ↔ refs.hasRest = true := by
  rw [mem_anonParams, mem_fixedParams_anonParams, drop_anonParams, or_iff_right]
  · cases refs.hasRest <;> simp
  · rintro ⟨k, -, -, heq⟩
    exact param_ne k heq.symm

theorem Faithful.clean (h : Faithful body (anonParams (refsOf body)) (rewritePctRefs span body)) :
    Clean body := by
  -- a symbol without a `%` is free in the function
  have hfree : ∀ x ∈ symbolsOf body, startsPct x.2 = false → (Meaning.outer x.2).Bound (refsOf body) := by
    intro x hx hpct
    have hagree := (agree_renamed _).mp (forall₂_agree.mp h.symbols _ hx)
    split at hagree
    · exact hagree hpct
    · obtain ⟨m, hm, -, hbound⟩ := hagree
      rw [meant_eq_outer.mpr ⟨hpct, rfl⟩] at hm
      cases hm
      exact hbound
  refine ⟨fun s hs => ?_, fun n hn k hk hkn x hx hname => ?_, fun hrest x hx hname => ?_⟩
  · have hagree := (agree_renamed _).mp (forall₂_agree.mp h.symbols _ hs)
    obtain ⟨m, hm, -, hbound⟩ := hagree
    refine ⟨m, hm, ?_⟩
    rintro n rfl
    exact hbound.2.trans_lt (refsOf_maxPos_lt body)
  · have hmax := h.covers n hn
    rw [length_fixedParams] at hmax
    have hbound := hfree x hx (by rw [hname]; simp [startsPct])
    rw [hname] at hbound
    exact param_ne k (hbound (mem_anonParams.mpr
      (.inl (mem_fixedParams_anonParams.mpr ⟨k, hk, hkn.trans hmax, rfl⟩))))
  · have hbound := hfree x hx (by rw [hname]; rfl)
    rw [hname, Meaning.Bound, mem_anonParams, drop_anonParams, if_pos
      (amp_mem_anonParams.mp (h.rest.mpr hrest))] at hbound
    exact absurd (hbound (.inr (by simp))) (by decide)

theorem Clean.faithful (h : Clean body) :
    Faithful body (anonParams (refsOf body)) (rewritePctRefs span body) := by
  obtain ⟨hrest, hmax, hused⟩ := foldl_see (own (symbolsOf body)) fun s hs => h.reads s (mem_own.mp hs)
  simp only [← refsOf_eq, mem_own] at hrest hmax hused
  have hfree : ∀ x ∈ symbolsOf body, (Meaning.outer x.2).Bound (refsOf body) := by
    intro x hx hmem
    rw [mem_anonParams, mem_fixedParams_anonParams, drop_anonParams] at hmem
    rcases hmem with ⟨k, hk, hle, hname⟩ | hmem
    · exact absurd hname (h.args _ (hused.resolve_left (by omega)) k hk hle x hx)
    · split at hmem
      · rename_i hhas
        rcases mem_cons.mp hmem with hname | hname
        · exact hname
        · exact absurd (mem_singleton.mp hname) (h.rest (hrest.mp hhas) x hx)
      · cases hmem
  refine ⟨?_, by rwa [length_fixedParams], by rwa [amp_mem_anonParams],
    forall₂_agree.mpr fun x hx => (agree_renamed x).mpr ?_⟩
  · rintro n ⟨s, hs, hm⟩
    rw [length_fixedParams]
    exact hmax s hs n hm
  split
  · exact fun _ => hfree x hx
  obtain ⟨inner, s⟩ := x
  simp only [Bool.not_eq_true] at *
  subst inner
  obtain ⟨m, hm⟩ := h.reads s hx
  refine ⟨m, hm.1, hm.rewrite, ?_⟩
  cases m with
  | arg n => exact ⟨one_le_of_meant hm.1, hmax s hx n hm.1⟩
  | rest => exact hrest.mpr ⟨s, hx, hm.1⟩
  | outer t =>
    obtain ⟨-, rfl⟩ := meant_eq_outer.mp hm.1
    exact hfree _ hx

/-- The function keeps what the body was written for if, and only if, the body is clean. -/
theorem anon_fn_faithful_iff (body : List Form) (span : Span) : ∃ params forms,
    expandAnonFn body span = .mk (.list [.mk (.symbol "fn*") span,
      .mk (.vector (params.map fun s => .mk (.symbol s) span)) span, .mk (.list forms) span]) span ∧
    (Faithful body params forms ↔ Clean body) :=
  ⟨_, _, rfl, Faithful.clean, Clean.faithful⟩

/-- `#(+ % p__1)` adds its argument to itself, and `#(f %0)` has a name for no argument. -/
theorem anon_fn_captures : let sym (s : String) : Form := .mk (.symbol s) ⟨0, 0, 1, 1⟩
    let list (forms : List Form) : Form := .mk (.list forms) ⟨0, 0, 1, 1⟩
    let fn (params body : List Form) : Form :=
      list [sym "fn*", .mk (.vector params) ⟨0, 0, 1, 1⟩, list body]
    (expandAnonFn [sym "+", sym "%", sym "p__1"] ⟨0, 0, 1, 1⟩ =
        fn [sym "p__1"] [sym "+", sym "p__1", sym "p__1"] ∧
      ¬ Faithful [sym "+", sym "%", sym "p__1"] ["p__1"] [sym "+", sym "p__1", sym "p__1"]) ∧
    (expandAnonFn [sym "f", sym "%0"] ⟨0, 0, 1, 1⟩ = fn [] [sym "f", sym "p__0"] ∧
      ¬ Faithful [sym "f", sym "%0"] [] [sym "f", sym "p__0"]) := by
  refine ⟨⟨rfl, fun h => ?_⟩, rfl, fun h => ?_⟩
  · obtain - | ⟨-, - | ⟨-, - | ⟨⟨-, m, hm, hmeans⟩, -⟩⟩⟩ := h.symbols
    cases hm
    exact hmeans.2.1 (by decide)
  · obtain - | ⟨-, - | ⟨⟨-, m, hm, hmeans⟩, -⟩⟩ := h.symbols
    cases hm

end Expansion

end Clojurust.Builtins
