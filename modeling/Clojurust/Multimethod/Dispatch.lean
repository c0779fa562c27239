import Clojurust.Lib.Registry
import Clojurust.Reader.PrintRead

/-!
# Multimethods

`defmulti`, `defmethod`, `remove-method` and the call of a multimethod (`eval_defmulti`,
`eval_defmethod` of `crates/cljrs-interp/src/special.rs`, `builtin_remove_method` of
`crates/cljrs-builtins/src/builtins.rs`, `apply_value` of `crates/cljrs-env/src/apply.rs`). Methods are
kept by the printed text of their dispatch value.

* `MultiFn`, `perform`, `implementation` — the methods, and which of them a call runs;
* `expected` — which of them it should run, by the equality of dispatch values;
* `Canonical` — data that are equal only to themselves;
* `multimethod_dispatch_iff` — a call runs what it should exactly where texts are equal if values are.
-/

namespace Clojurust.Multimethod

open Registry Reader Builtins Value

/-- A function value, by its identity. -/
abbrev Impl := Nat

structure MultiFn where
  name : String
  /-- Methods by the text of their dispatch value. -/
  methods : List Char → Option Impl
  defaultDispatch : List Char

section Dispatch

variable (fmt : Formats)

/-- `format!("{}", v)`. -/
def keyOf (v : Value) : List Char := v.prStr fmt true

def evalDefmulti (name : String) (default : Option Value) : MultiFn where
  name := name
  methods := fun _ => none
  defaultDispatch :=
    match default with
    | some v => keyOf fmt v
    | none => [':', 'd', 'e', 'f', 'a', 'u', 'l', 't']

def evalDefmethod (mf : MultiFn) (dispatchVal : Value) (impl : Impl) : MultiFn :=
  { mf with methods := Function.update mf.methods (keyOf fmt dispatchVal) (some impl) }

def builtinRemoveMethod (mf : MultiFn) (dispatchVal : Value) : MultiFn :=
  { mf with methods := Function.update mf.methods (keyOf fmt dispatchVal) none }

def perform (mf : MultiFn) : Action Value Impl → MultiFn
  | .register dispatchVal impl => evalDefmethod fmt mf dispatchVal impl
  | .remove dispatchVal => builtinRemoveMethod fmt mf dispatchVal

/-- The message of a call without a method. -/
def noMethod (name : String) (dispatchVal : Value) : String :=
  "No method in multimethod '" ++ name ++ "' for dispatch value " ++
    String.ofList (keyOf fmt dispatchVal)

/-- The function that a call with this dispatch value runs. -/
def implementation (mf : MultiFn) (dispatchVal : Value) : Except String Impl :=
  match (mf.methods (keyOf fmt dispatchVal)).or (mf.methods mf.defaultDispatch) with
  | some impl => .ok impl
  | none => .error (noMethod fmt mf.name dispatchVal)

/-- The multimethod after some calls of `defmethod` and `remove-method`. -/
def after (name : String) (default : Option Value) (calls : List (Action Value Impl)) : MultiFn :=
  calls.foldl (perform fmt) (evalDefmulti fmt name default)

/-- `:default`, if nothing else is said. -/
def defaultValue (default : Option Value) : Value := default.getD (.keyword ⟨none, "default"⟩)

/-- The method that was defined latest for an equal dispatch value and is still there, or else that for
the default. -/
def expected (num : Numerics) (name : String) (default : Option Value)
    (calls : List (Action Value Impl)) (dispatchVal : Value) : Except String Impl :=
  match chosen (Value.eq num) (defaultValue default) calls dispatchVal with
  | some impl => .ok impl
  | none => .error (noMethod fmt name dispatchVal)

variable {fmt}

theorem foldl_perform : ∀ (calls : List (Action Value Impl)) (mf : MultiFn),
    calls.foldl (perform fmt) mf = { mf with methods := calls.foldl (store (keyOf fmt)) mf.methods }
  | [], mf => rfl
  | call :: calls, mf => by
    have hcall : perform fmt mf call = { mf with methods := store (keyOf fmt) mf.methods call } := by
      cases call <;> rfl
    rw [List.foldl_cons, foldl_perform calls, hcall, List.foldl_cons]

variable (name : String) (default : Option Value) (calls : List (Action Value Impl)) (dispatchVal : Value)

theorem implementation_after : implementation fmt (after fmt name default calls) dispatchVal =
    ((select (stored (keyOf fmt) calls) (keyOf fmt (defaultValue default))
      (keyOf fmt dispatchVal)).elim (.error (noMethod fmt name dispatchVal)) .ok) := by
  have hdefault : evalDefmulti fmt name default =
      ⟨name, fun _ => none, keyOf fmt (defaultValue default)⟩ := by cases default <;> rfl
  rw [after, hdefault, foldl_perform, implementation, ← stored, ← select]
  grind

theorem expected_eq (num : Numerics) : expected fmt num name default calls dispatchVal =
    ((chosen (eq num) (defaultValue default) calls dispatchVal).elim
      (.error (noMethod fmt name dispatchVal)) .ok) := by
  rw [expected]
  grind

theorem elim_inj {e : String} : ∀ {x y : Option Impl},
    x.elim (.error e : Except String Impl) .ok = y.elim (.error e) .ok ↔ x = y
  | some a, some b | some a, none | none, some b | none, none => by simp

end Dispatch

/-! ## Canonical data -/

/-- Data that are equal only to themselves. -/
inductive Canonical : Value → Prop
  | nil : Canonical .nil
  | bool (b : Bool) : Canonical (.bool b)
  | long (n : Int64) : Canonical (.long n)
  | ratio (r : ℚ) : Canonical (.ratio r)
  | char (c : Char) : Canonical (.char c)
  | str (s : String) : Canonical (.str s)
  | symbol (s : Symbol) : Canonical (.symbol s)
  | keyword (k : Keyword) : Canonical (.keyword k)
  | vector {items : List Value} (h : ∀ x ∈ items, Canonical x) : Canonical (.vector items)

theorem Canonical.isPlain {v : Value} (h : Canonical v) : v.isPlain = true := by
  cases h <;> rfl

theorem Canonical.isNaN {v : Value} (h : Canonical v) : v.isNaN = false := by
  cases h <;> rfl

variable {num : Numerics}

theorem Canonical.shape_rel {a b : Value} (ha : Canonical a) (hb : Canonical b)
    (h : a.eq num b = true) : Shape.Rel num (eq num) a.shape b.shape := by
  rw [eq_plain ha.isPlain hb.isPlain] at h
  exact (eqPlain_iff ha.isPlain hb.isPlain ha.isNaN hb.isNaN).mp h

theorem Canonical.eq_of_eq {a b : Value} (ha : Canonical a) (hb : Canonical b)
    (h : a.eq num b = true) : a = b := by
  induction ha generalizing b with
  | vector hitems ih =>
    have hrel := Canonical.shape_rel (.vector hitems) hb h
    cases hb with
    | vector hitems' =>
      have hpairs : List.Forall₂ (fun x y : Value => x.eq num y = true) _ _ := hrel
      refine congrArg Value.vector (List.ext_get hpairs.length_eq fun i hi hi' => ?_)
      exact ih _ (List.get_mem _ _) (hitems' _ (List.get_mem _ _)) (hpairs.get hi hi')
    | _ => exact absurd hrel id
  | _ =>
    have hrel := Canonical.shape_rel (by constructor) hb h
    cases hb <;> simp_all [shape, Shape.Rel, Int64.toInt_inj]

/-! ## Calls -/

/-- **Dispatch.** After any methods are defined and removed for dispatch values of a set, every call runs
the method that it should exactly if, in the set, the values with one text are those that are equal. This
is so for canonical data that are printed to be read. -/
theorem multimethod_dispatch_iff (fmt : Formats) (num : Numerics) (name : String)
    (default : Option Value) (S : Set Value) (hdefault : defaultValue default ∈ S)
    (hself : ∀ v ∈ S, v.eq num (defaultValue default) = true → v.eq num v = true) :
    ((∀ calls : List (Action Value Impl), (∀ call ∈ calls, call.key ∈ S) → ∀ d ∈ S,
        implementation fmt (after fmt name default calls) d = expected fmt num name default calls d) ↔
      ∀ a ∈ S, ∀ b ∈ S, (keyOf fmt a = keyOf fmt b ↔ a.eq num b = true)) ∧
    ∀ (p : Platform) (D : Set Value), Value.Tidy num D → (∀ v ∈ D, Datum v) → S ⊆ D →
      (∀ v ∈ S, Canonical v ∧ Legible p v ∧ utf8Len (keyOf fmt v) + 2 < 2 ^ 32) →
      ∀ a ∈ S, ∀ b ∈ S, (keyOf fmt a = keyOf fmt b ↔ a.eq num b = true) := by
  constructor
  · simp only [implementation_after, expected_eq, elim_inj]
    exact select_iff hdefault hself Nat.zero_ne_one
  · intro p D hD hdata hsub hS a ha b hb
    obtain ⟨hcanonical, hlegible, hsize⟩ := hS a ha
    constructor
    · intro hkey
      exact eq_of_prStr_eq p plainLiterals hD hdata (hsub ha) (hsub hb) hlegible hsize hkey
    · intro hequal
      rw [hcanonical.eq_of_eq (hS b hb).1 hequal]

/-- The dispatch values of a multimethod for shapes. -/
inductive ShapeTag : Value → Prop
  | circle : ShapeTag (.keyword ⟨none, "circle"⟩)
  | default : ShapeTag (.keyword ⟨none, "default"⟩)

theorem shapeTag_tidy : Value.Tidy exactNumerics {v | ShapeTag v} := by
  refine .of_isBasic ?_ ?_
  · rintro v ⟨⟩ <;> exact fun _ h => nomatch h
  · rintro v ⟨⟩ <;> rfl

theorem shapeTag_datum : ∀ v ∈ {v | ShapeTag v}, Datum v := by
  rintro v ⟨⟩ <;> exact .keyword _ ⟨by decide, by decide, by decide, by decide⟩

/-- For shapes every call runs the method that it should. -/
theorem shape_dispatch : ShapeTag (.keyword ⟨none, "circle"⟩) ∧
    ∀ calls : List (Action Value Impl), (∀ call ∈ calls, ShapeTag call.key) → ∀ d, ShapeTag d →
      implementation plainFormats (after plainFormats "area" none calls) d =
        expected plainFormats exactNumerics "area" none calls d := by
  have hiff := multimethod_dispatch_iff plainFormats exactNumerics "area" none {v | ShapeTag v} .default
    (by rintro v ⟨⟩ - <;> decide)
  refine ⟨.circle, hiff.1.mpr ?_⟩
  refine hiff.2 (plainPlatform true) _ shapeTag_tidy shapeTag_datum subset_rfl ?_
  rintro v ⟨⟩ <;> exact ⟨.keyword _, legible_scalar rfl nofun, by decide⟩

/-- What a call with one dispatch value runs, and should run, when there is a method for another. -/
def called (registered d : Value) : Except String Impl × Except String Impl :=
  (implementation plainFormats (after plainFormats "area" none [.register registered 0]) d,
    expected plainFormats exactNumerics "area" none [.register registered 0] d)

/-- `{:a 1, :b 2}`, or the entries the other way round. -/
def pairMap (flipped : Bool) : Value :=
  let a := (Value.keyword ⟨none, "a"⟩, Value.long 1)
  let b := (Value.keyword ⟨none, "b"⟩, Value.long 2)
  .map (.array (if flipped then [b, a] else [a, b]))

/-- The method for `[1]`, `1` or a map is not found for `(1)`, `1N` or the map with its entries in
another order, and the method for the symbol `:a` is found for the keyword. -/
theorem dispatch_diverges : called (.vector [.long 1]) (.list [.long 1]) =
      (.error "No method in multimethod 'area' for dispatch value (1)", .ok 0) ∧
    called (.long 1) (.bigInt 1) =
      (.error "No method in multimethod 'area' for dispatch value 1N", .ok 0) ∧
    called (pairMap false) (pairMap true) =
      (.error "No method in multimethod 'area' for dispatch value \x7b:b 2, :a 1\x7d", .ok 0) ∧
    called (.symbol ⟨none, ":a", none⟩) (.keyword ⟨none, "a"⟩) =
      (.ok 0, .error "No method in multimethod 'area' for dispatch value :a") :=
  ⟨by decide, by decide, by decide, by decide⟩

end Clojurust.Multimethod
