import Clojurust.Reader.Numerals
import Clojurust.Reader.Parser
import Clojurust.Value.Builders
import Clojurust.Value.Names

/-!
# Forms as data

`form_to_value` of `crates/cljrs-builtins/src/form.rs`: the value that a form stands for when it is
quoted.

* `expandAnonFn` — `#(…)` as a function with parameters;
* `expandReaderConds` — reader conditionals among the forms of a sequence;
* `formToValue`, `formToValue_eq` — the conversion and its recursion equation. Forms shrink along
  `Form.size`, where an anonymous function counts for the parameters it expands to.
-/

namespace Clojurust.Builtins

open Reader OpenRecursion List

/-! ## Anonymous functions -/

/-- `str::parse::<usize>`. -/
def parseUsize (text : List Char) : Option Nat :=
  (ParseInt.parseUnsigned decimalChars (2 ^ 64 - 1) text).toOption

/-- The largest position and whether the rest is referred to. -/
structure PctRefs where
  maxPos : Nat
  hasRest : Bool

def PctRefs.see (refs : PctRefs) (s : String) : PctRefs :=
  if (s = "%" ∨ s = "%1") ∧ refs.maxPos < 1 then { refs with maxPos := 1 }
  else if s = "%&" then { refs with hasRest := true }
  else
    match s.toList with
    | '%' :: position =>
      match parseUsize position with
      | some n => if refs.maxPos < n then { refs with maxPos := n } else refs
      | none => refs
    | _ => refs

mutual

def findPctRefs : List Form → PctRefs → PctRefs
  | [], refs => refs
  | form :: forms, refs => findPctRefs forms (findPctRefsForm form refs)

/-- Inner anonymous functions are not looked into. -/
def findPctRefsForm : Form → PctRefs → PctRefs
  | .mk (.symbol s) _, refs => refs.see s
  | .mk (.list forms) _, refs | .mk (.vector forms) _, refs | .mk (.set forms) _, refs
  | .mk (.map forms) _, refs => findPctRefs forms refs
  | .mk (.quote inner) _, refs | .mk (.syntaxQuote inner) _, refs | .mk (.unquote inner) _, refs
  | .mk (.unquoteSplice inner) _, refs | .mk (.deref inner) _, refs | .mk (.var inner) _, refs
  | .mk (.taggedLiteral _ inner) _, refs => findPctRefsForm inner refs
  | .mk (.metadata data inner) _, refs => findPctRefsForm inner (findPctRefsForm data refs)
  | .mk (.readerCond _ clauses) _, refs => findPctRefs clauses refs
  | _, refs => refs

end

/-- The parameter that a symbol of the body stands for. -/
def rewritePctSymbol (s : String) : String :=
  if s = "%" ∨ s = "%1" then "p__1"
  else if s = "%&" then "rest__"
  else
    match s.toList with
    | '%' :: position =>
      match parseUsize position with
      | some n => "p__" ++ toString n
      | none => s
    | _ => s

mutual

def rewritePctRefs (span : Span) : List Form → List Form
  | [] => []
  | form :: forms => rewritePctForm span form :: rewritePctRefs span forms

/-- A symbol that is not rewritten keeps its own span, like the forms that are not looked into. -/
def rewritePctForm (span : Span) : Form → Form
  | .mk (.symbol s) own =>
    .mk (.symbol (rewritePctSymbol s)) (if rewritePctSymbol s = s then own else span)
  | .mk (.list forms) _ => .mk (.list (rewritePctRefs span forms)) span
  | .mk (.vector forms) _ => .mk (.vector (rewritePctRefs span forms)) span
  | .mk (.set forms) _ => .mk (.set (rewritePctRefs span forms)) span
  | .mk (.map forms) _ => .mk (.map (rewritePctRefs span forms)) span
  | .mk (.quote inner) _ => .mk (.quote (rewritePctForm span inner)) span
  | .mk (.syntaxQuote inner) _ => .mk (.syntaxQuote (rewritePctForm span inner)) span
  | .mk (.unquote inner) _ => .mk (.unquote (rewritePctForm span inner)) span
  | .mk (.unquoteSplice inner) _ => .mk (.unquoteSplice (rewritePctForm span inner)) span
  | .mk (.deref inner) _ => .mk (.deref (rewritePctForm span inner)) span
  | .mk (.var inner) _ => .mk (.var (rewritePctForm span inner)) span
  | .mk (.taggedLiteral tag inner) _ => .mk (.taggedLiteral tag (rewritePctForm span inner)) span
  | .mk (.metadata data inner) _ =>
    .mk (.metadata (rewritePctForm span data) (rewritePctForm span inner)) span
  | .mk (.readerCond splicing clauses) _ =>
    .mk (.readerCond splicing (rewritePctRefs span clauses)) span
  | form => form

end

/-- The parameter vector of an anonymous function. -/
def anonParams (refs : PctRefs) : List String :=
  (List.range' 1 refs.maxPos).map (fun i => "p__" ++ toString i) ++
    (if refs.hasRest then ["&", "rest__"] else [])

def expandAnonFn (body : List Form) (span : Span) : Form :=
  let refs := findPctRefs body ⟨0, false⟩
  .mk (.list [.mk (.symbol "fn*") span,
    .mk (.vector ((anonParams refs).map fun s => .mk (.symbol s) span)) span,
    .mk (.list (rewritePctRefs span body)) span]) span

/-! ## Size -/

mutual

def formSize : Form → Nat
  | .mk (.list forms) _ | .mk (.vector forms) _ | .mk (.map forms) _ | .mk (.set forms) _ =>
    1 + formsSize forms
  | .mk (.quote inner) _ | .mk (.syntaxQuote inner) _ | .mk (.unquote inner) _
  | .mk (.unquoteSplice inner) _ | .mk (.deref inner) _ | .mk (.var inner) _ => 1 + formSize inner
  | .mk (.metadata data inner) _ => 1 + formSize data + formSize inner
  | .mk (.taggedLiteral _ inner) _ => 1 + formSize inner
  | .mk (.readerCond _ clauses) _ => 1 + formsSize clauses
  -- room for the call, its parameters and the body around the forms
  | .mk (.anonFn forms) _ => 7 + (findPctRefs forms ⟨0, false⟩).maxPos + formsSize forms
  | _ => 1

def formsSize : List Form → Nat
  | [] => 0
  | form :: forms => formSize form + formsSize forms

end

theorem formSize_le_of_mem {form : Form} : ∀ {forms : List Form}, form ∈ forms →
    formSize form ≤ formsSize forms
  | first :: forms, h => by
    rw [formsSize]
    rcases mem_cons.mp h with rfl | h
    · omega
    · have := formSize_le_of_mem h
      omega

mutual

theorem formsSize_rewrite (span : Span) : ∀ forms : List Form,
    formsSize (rewritePctRefs span forms) = formsSize forms
  | [] => rfl
  | form :: forms => by
    rw [rewritePctRefs, formsSize, formsSize, formSize_rewrite span form,
      formsSize_rewrite span forms]

theorem formSize_rewrite (span : Span) : ∀ form : Form,
    formSize (rewritePctForm span form) = formSize form
  | .mk kind _ => by
    cases kind with
    | list forms | vector forms | set forms | map forms | readerCond _ forms =>
      simp only [rewritePctForm, formSize, formsSize_rewrite span forms]
    | quote inner | syntaxQuote inner | unquote inner | unquoteSplice inner | deref inner
    | var inner | taggedLiteral _ inner =>
      simp only [rewritePctForm, formSize, formSize_rewrite span inner]
    | metadata data inner =>
      simp only [rewritePctForm, formSize, formSize_rewrite span data, formSize_rewrite span inner]
    | _ => rfl

end

/-! ## Reader conditionals -/

/-- What converts a literal, and the features that reader conditionals match. -/
structure Literals where
  /-- `parse_bigdecimal`. -/
  bigDecimal : String → Option BigDecimal
  /-- The compiled pattern, `nil` if it is rejected. -/
  regex : String → Value
  /-- `parse_rfc3339_millis`. -/
  instant : String → Option Int64
  /-- `Uuid::parse_str`. -/
  uuid : String → Option (BitVec 128)
  /-- `feature_matches`. -/
  feature : String → Bool

section Conditionals

variable (env : Literals)

def clauseMatches : Form → Bool
  | .mk (.keyword k) _ => k = "default" || env.feature k
  | _ => false

/-- The form after the first key that matches. -/
def selectReaderCond : List Form → Option Form
  | key :: form :: clauses => if clauseMatches env key then some form else selectReaderCond clauses
  | _ => none

/-- The body of `expand_reader_conds`, for one form. -/
def expandForm (expand : List Form → List Form) : Form → List Form
  | .mk (.readerCond true clauses) _ =>
    match selectReaderCond env clauses with
    | some (.mk (.vector elems) _) | some (.mk (.list elems) _) => expand elems
    | some form => [form]
    | none => []
  | .mk (.readerCond false clauses) _ => (selectReaderCond env clauses).toList
  | form => [form]

def expandReaderConds (forms : List Form) : List Form :=
  fix formsSize (fun expand forms => forms.flatMap (expandForm env expand)) [] forms

variable {env}

theorem formSize_selectReaderCond {form : Form} : ∀ {clauses : List Form},
    selectReaderCond env clauses = some form → formSize form ≤ formsSize clauses
  | key :: first :: clauses, h => by
    simp only [formsSize]
    rw [selectReaderCond] at h
    split at h
    · cases h
      omega
    · have := formSize_selectReaderCond h
      omega
  | [_], h | [], h => by cases h

theorem expandForm_congr {f g : List Form → List Form} {form : Form}
    (h : ∀ forms, formsSize forms < formSize form → f forms = g forms) :
    expandForm env f form = expandForm env g form := by
  unfold expandForm
  split
  · split
    · rename_i elems _ hselect
      have := formSize_selectReaderCond hselect
      simp only [formSize] at this h
      exact h elems (by omega)
    · rename_i elems _ hselect
      have := formSize_selectReaderCond hselect
      simp only [formSize] at this h
      exact h elems (by omega)
    · rfl
    · rfl
  · rfl
  · rfl

theorem expandReaderConds_eq (forms : List Form) :
    expandReaderConds env forms = forms.flatMap (expandForm env (expandReaderConds env)) := by
  refine fix_eq ?_ forms
  intro f g forms h
  refine flatMap_congr ?_
  intro form hform
  have hle := formSize_le_of_mem hform
  exact expandForm_congr fun elems helems => h elems (by omega)

theorem formSize_expandReaderConds {forms : List Form} :
    ∀ x ∈ expandReaderConds env forms, formSize x ≤ formsSize forms := by
  induction hn : formsSize forms using Nat.strong_induction_on generalizing forms with
  | _ =>
    intro x hx
    rw [expandReaderConds_eq] at hx
    obtain ⟨form, hform, hx⟩ := mem_flatMap.mp hx
    have hle := formSize_le_of_mem hform
    unfold expandForm at hx
    split at hx
    · simp only [formSize] at hle
      split at hx
      · rename_i elems _ hselect
        have hsize := formSize_selectReaderCond hselect
        simp only [formSize] at hsize
        grind
      · rename_i elems _ hselect
        have hsize := formSize_selectReaderCond hselect
        simp only [formSize] at hsize
        grind
      · rename_i hselect
        have hsize := formSize_selectReaderCond hselect
        grind
      · cases hx
    · simp only [formSize] at hle
      have hsize := formSize_selectReaderCond (Option.mem_toList.mp hx)
      omega
    · grind

end Conditionals

/-! ## Conversion -/

/-- `parse_ratio`: a ratio that is an integer is one. -/
def parseRatio (s : String) : Option Value :=
  match s.toList.splitOn '/' with
  | [numer, denom] => do
    let n ← parseInt numer
    let d ← parseInt denom
    if d = 0 then none
    else
      let r : ℚ := n / d
      if r.den = 1 then
        match toI64? r.num with
        | some i => some (.long i)
        | none => some (.bigInt r.num)
      else some (.ratio r)
  | _ => none

section Conversion

variable (num : Numerics) (env : Literals)

/-- A list of a symbol and the value of a form. -/
def wrapped (f : Form → Value) (name : Symbol) (inner : Form) : Value :=
  .list [.symbol name, f inner]

/-- The entries of a map literal, two forms at a time. -/
def assocForms (f : Form → Value) : List Form → MapValue Value Value → MapValue Value Value
  | key :: value :: forms, m => assocForms f forms (m.assoc (Value.keyOps num) (f key) (f value))
  | _, m => m

/-- A tagged literal of a text, if the tag is known and the text can be parsed. -/
def taggedText (tag : String) : FormKind → Option Value
  | .str s =>
    if tag = "inst" then (env.instant s).map .instant
    else if tag = "uuid" then (env.uuid s).map .uuid
    else none
  | _ => none

/-- The body of `form_to_value`. -/
def formToValueStep (f : Form → Value) : Form → Value
  | .mk .nil _ => .nil
  | .mk (.bool b) _ => .bool b
  | .mk (.int n) _ => .long n
  | .mk (.float x) _ | .mk (.symbolic x) _ => .double x
  | .mk (.str s) _ => .str s
  | .mk (.char c) _ => .char c
  | .mk (.bigInt s) _ => ((parseBigInt s).map Value.bigInt).getD .nil
  | .mk (.bigDecimal s) _ => ((env.bigDecimal s).map Value.bigDecimal).getD .nil
  | .mk (.ratio s) _ => (parseRatio s).getD .nil
  | .mk (.symbol s) _ => .symbol (Symbol.parse s)
  | .mk (.keyword s) _ => .keyword (Keyword.parse s)
  | .mk (.autoKeyword s) _ => .keyword ⟨none, s⟩
  | .mk (.regex s) _ => env.regex s
  | .mk (.list forms) _ => .list ((expandReaderConds env forms).map f)
  | .mk (.vector forms) _ => .vector ((expandReaderConds env forms).map f)
  | .mk (.map forms) _ => .map (assocForms num f forms .empty)
  | .mk (.set forms) _ =>
    .set (.hash (GrowingSet.ofList (Value.keyOps num) (forms.map f)).toPersistentHashSet)
  | .mk (.quote inner) _ => wrapped f ⟨none, "quote", none⟩ inner
  | .mk (.syntaxQuote inner) _ => wrapped f ⟨none, "syntax-quote", none⟩ inner
  | .mk (.unquote inner) _ => wrapped f ⟨none, "unquote", none⟩ inner
  | .mk (.unquoteSplice inner) _ => wrapped f ⟨none, "unquote-splicing", none⟩ inner
  | .mk (.deref inner) _ => wrapped f (Symbol.parse "clojure.core/deref") inner
  | .mk (.var inner) _ => wrapped f ⟨none, "var", none⟩ inner
  | .mk (.metadata _ inner) _ => f inner
  | .mk (.anonFn body) span => f (expandAnonFn body span)
  | .mk (.taggedLiteral tag inner) _ => (taggedText env tag inner.kind).getD (f inner)
  | .mk (.readerCond false clauses) _ => ((selectReaderCond env clauses).map f).getD .nil
  -- the form around it has to splice
  | .mk (.readerCond true _) _ => .nil

def formToValue (form : Form) : Value := fix formSize (formToValueStep num env) .nil form

variable {num env}

theorem assocForms_congr {f g : Form → Value} : ∀ {forms : List Form} {m : MapValue Value Value},
    (∀ x ∈ forms, f x = g x) → assocForms num f forms m = assocForms num g forms m
  | key :: value :: forms, m, h => by
    simp only [forall_mem_cons] at h
    rw [assocForms, assocForms, h.1, h.2.1]
    exact assocForms_congr h.2.2
  | [_], _, _ | [], _, _ => rfl

theorem formSize_expandAnonFn (body : List Form) (span : Span) :
    formSize (expandAnonFn body span) < formSize (.mk (.anonFn body) span) := by
  have hparams : ∀ names : List String,
      formsSize (names.map fun s => Form.mk (.symbol s) span) = names.length := by
    intro names
    induction names with
    | nil => rfl
    | cons s names ih =>
      simp only [map_cons, formsSize, formSize, ih, length_cons]
      omega
  have hlength : ∀ refs : PctRefs, (anonParams refs).length ≤ refs.maxPos + 2 := by
    intro refs
    rw [anonParams, length_append, length_map, length_range']
    split <;> simp
  have hrefs := hlength (findPctRefs body ⟨0, false⟩)
  simp only [expandAnonFn, formSize, formsSize, hparams, formsSize_rewrite]
  omega

theorem formToValueStep_decreasing : Decreasing formSize (formToValueStep num env) := by
  intro f g form h
  have hforms : ∀ forms : List Form, formsSize forms < formSize form → ∀ x ∈ forms, f x = g x := by
    intro forms hsize x hx
    have := formSize_le_of_mem hx
    exact h x (by omega)
  have hexpanded : ∀ forms : List Form, formsSize forms < formSize form →
      (expandReaderConds env forms).map f = (expandReaderConds env forms).map g := by
    intro forms hsize
    refine map_congr_left fun x hx => h x ?_
    have := formSize_expandReaderConds x hx
    omega
  obtain ⟨kind, span⟩ := form
  cases kind with
  | list forms | vector forms =>
    have hmap := hexpanded forms (by rw [formSize]; omega)
    simp only [formToValueStep, hmap]
  | map forms =>
    have hmap : assocForms num f forms .empty = assocForms num g forms .empty :=
      assocForms_congr (hforms forms (by rw [formSize]; omega))
    simp only [formToValueStep, hmap]
  | set forms =>
    have hmap := map_congr_left (hforms forms (by rw [formSize]; omega))
    simp only [formToValueStep, hmap]
  | quote inner | syntaxQuote inner | unquote inner | unquoteSplice inner | deref inner | var inner =>
    have hinner := h inner (by rw [formSize]; omega)
    simp only [formToValueStep, wrapped, hinner]
  | metadata data inner => exact h inner (by rw [formSize]; omega)
  | anonFn body => exact h _ (formSize_expandAnonFn body span)
  | taggedLiteral tag inner =>
    have hinner := h inner (by rw [formSize]; omega)
    simp only [formToValueStep, hinner]
  | readerCond splicing clauses =>
    cases splicing with
    | true => rfl
    | false =>
      simp only [formToValueStep]
      cases hselect : selectReaderCond env clauses with
      | none => rfl
      | some selected =>
        have := formSize_selectReaderCond hselect
        exact h selected (by rw [formSize]; omega)
  | _ => rfl

theorem formToValue_eq (form : Form) :
    formToValue num env form = formToValueStep num env (formToValue num env) form :=
  fix_eq formToValueStep_decreasing form

end Conversion

end Clojurust.Builtins
