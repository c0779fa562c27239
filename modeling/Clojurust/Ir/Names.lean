import Mathlib.Data.List.DropRight
import Clojurust.Value.Names

/-!
# Names in the two tiers

What a symbol stands for in the tree-walker (`eval_symbol` and `eval_list` of
`crates/cljrs-interp/src/eval.rs`, `eval_call` of `apply.rs`) and in lowered code: `macroexpand_all` and
`resolve_macro` of `macros.rs`, by which bodies are expanded before they are lowered, `lower_list`,
`lower_call`, `lower_symbol` and `lower_fn` of `crates/cljrs-ir/src/lower/anf.rs`, `resolve_known_fn` of
`known.rs`, and `load_global_value` of `crates/cljrs-eval/src/ir_interp.rs`.

* `GlobalEnv` — namespaces with their aliases, their own vars and the vars they refer to;
* `Scope` — the binders around a place in a program; `Scope.frames` and `Scope.lowered` — the locals
  that the two tiers see there;
* `coreTable`, `knownFn` — the core functions that lowering knows by name, and the function it calls;
* `Occurrence` — a symbol at a place; `resolved`, `lowered` — what it denotes.

A var of `clojure.core` stands for the function it is registered with. Left out are programs that give
such a var another value, bodies that fail to expand (they are lowered as they are), the lists of `letfn`,
`reify` and the like, whose heads are names and are expanded all the same, and code that is evaluated at
a commit (`versioned_eval_commit`).
-/

namespace Clojurust.Ir

/-! ## Texts -/

abbrev Text := List Char

/-- The text before and behind the first slash. -/
def splitSlash (s : Text) : Option (Text × Text) :=
  match s.span (· != '/') with
  | (_, []) => none
  | (before, _ :: behind) => some (before, behind)

/-- The text behind the last slash (`strip_ns_prefix`). -/
def stripNsPrefix (s : Text) : Text := if s = ['/'] then s else s.rtakeWhile (· != '/')

def baseNsName (ns : Text) : Text := (splitVersion ns).1

/-- `split_sym`: the namespace and the name that code loads a global by. -/
def splitSym (s ns : Text) : Text × Text :=
  if s = ['/'] then (ns, s)
  else
    match splitSlash s with
    | some (before, behind) =>
      if (splitVersion ns).2.isSome ∧ before = baseNsName ns then (ns, behind) else (before, behind)
    | none => (ns, s)

/-! ## Namespaces -/

/-- A var, by the namespace it is interned in. -/
structure VarRef where
  ns : Text
  name : Text
  deriving DecidableEq

structure Namespace where
  aliases : List (Text × Text)
  interns : List Text
  refers : List (Text × VarRef)

/-- Of the values of vars it only matters whether there is one and whether it is a macro. -/
structure GlobalEnv where
  namespaces : List (Text × Namespace)
  unbound : List VarRef
  macros : List VarRef

namespace GlobalEnv

variable (globals : GlobalEnv)

def resolveAlias (current qualifier : Text) : Option Text := do
  let ns ← globals.namespaces.lookup current
  ns.aliases.lookup qualifier

/-- The namespace that a qualifier stands for. -/
def resolveNs (current qualifier : Text) : Text :=
  (globals.resolveAlias current qualifier).getD qualifier

def lookupVarInNs (ns name : Text) : Option VarRef := do
  let entry ← globals.namespaces.lookup ns
  if name ∈ entry.interns then some ⟨ns, name⟩ else entry.refers.lookup name

/-- The var if it has a value. -/
def lookupInNs (ns name : Text) : Option VarRef :=
  (globals.lookupVarInNs ns name).filter (fun v => !globals.unbound.contains v)

end GlobalEnv

/-! ## Binders -/

/-- What a function binds, and a name of `let`, `loop` or a destructuring. -/
inductive Place where
  | self
  | param (index : Nat)
  | name
  deriving DecidableEq

/-- A binder, by the number of scopes around it. -/
structure Binder where
  depth : Nat
  place : Place
  deriving DecidableEq

/-- The scopes around a place: the function that is lowered, names bound one by one, and functions
inside, each with the symbols that occur in it. -/
inductive Scope where
  | top (self : Option Text) (params : List Text)
  | bind (outer : Scope) (name : Text)
  | fn (outer : Scope) (self : Option Text) (params referenced : List Text)

/-- What a symbol denotes. -/
inductive Denotation where
  | special (name : Text)
  | method (name : Text)
  | local (binder : Binder)
  /-- The var cell that code makes for a named function. -/
  | cell (binder : Binder)
  | deref (inner : Denotation)
  | global (var : VarRef)
  /-- The function that a `KnownFn`, or code in its place, is for. -/
  | core (fn : Text)
  | className (name : Text)
  | versioned (ns name commit : Text)
  | unresolved
  deriving DecidableEq

/-- One scope of locals. -/
abbrev Frame := Text → Option Denotation

def Frame.empty : Frame := fun _ => none

def Frame.bindLocal (frame : Frame) (name : Text) (d : Denotation) : Frame :=
  fun n => if n = name then some d else frame n

/-- The innermost frame comes first. -/
def lookupLocal (frames : List Frame) (name : Text) : Option Denotation :=
  frames.findSome? (fun frame => frame name)

def Frame.bindParams (frame : Frame) (depth : Nat) (params : List Text) : Frame :=
  params.zipIdx.foldl (fun f p => f.bindLocal p.1 (.local ⟨depth, .param p.2⟩)) frame

def Frame.bindSelf (frame : Frame) (depth : Nat) : Option Text → Frame
  | some name => frame.bindLocal name (.local ⟨depth, .self⟩)
  | none => frame

namespace Scope

def depth : Scope → Nat
  | top _ _ => 0
  | bind outer _ | fn outer _ _ _ => outer.depth + 1

/-- The function that is lowered. -/
def topName : Scope → Option Text
  | top self _ => self
  | bind outer _ | fn outer _ _ _ => outer.topName

/-- The locals of the tree-walker: a function binds its own name and then its parameters. -/
def frames : Scope → List Frame
  | top self params => [(Frame.empty.bindSelf 0 self).bindParams 0 params]
  | bind outer name => Frame.empty.bindLocal name (.local ⟨outer.depth + 1, .name⟩) :: outer.frames
  | fn outer self params _ =>
    (Frame.empty.bindSelf (outer.depth + 1) self).bindParams (outer.depth + 1) params :: outer.frames

/-- The symbol occurs inside all functions. -/
def Mentions (s : Text) : Scope → Prop
  | top _ _ => True
  | bind outer _ => outer.Mentions s
  | fn outer _ _ referenced => s ∈ referenced ∧ outer.Mentions s

end Scope

/-! ## Locals of lowered code -/

/-- `Inst::Deref`. -/
def Denotation.dereference : Denotation → Denotation
  | cell binder => .local binder
  | d => .deref d

/-- The cell of a named function (`lower_fn`), unless its name is a local already. -/
def withSelfCell (frames : List Frame) (depth : Nat) : Option Text → List Frame
  | some name =>
    if (lookupLocal frames name).isNone then
      Frame.empty.bindLocal name (.cell ⟨depth, .self⟩) :: frames
    else frames
  | none => frames

/-- The parameters of a function (`lower_fn_arity`): the captured locals, the parameters, and the name of
the function, which is what its capture dereferences to. -/
def arityFrame (captured : Frame) (depth : Nat) (self : Option Text) (params : List Text) : Frame :=
  let bound := captured.bindParams depth params
  match self with
  | some name =>
    match captured name with
    | some d => bound.bindLocal name d.dereference
    | none => bound
  | none => bound

/-- The targets of `recur`: every parameter again, with what its name is bound to. -/
def headerFrame (bound : Frame) (params : List Text) : Frame :=
  fun n => if n ∈ params then bound n else none

def lowerFn (frames : List Frame) (depth : Nat) (self : Option Text) (params referenced : List Text) :
    List Frame :=
  let outer := withSelfCell frames depth self
  let captured : Frame := fun n => if n ∈ referenced then lookupLocal outer n else none
  let bound := arityFrame captured depth self params
  [headerFrame bound params, bound]

/-- The locals of lowered code. The name of the function itself is none of them. -/
def Scope.lowered : Scope → List Frame
  | top _ params => [Frame.empty.bindParams 0 params]
  | bind outer name => Frame.empty.bindLocal name (.local ⟨outer.depth + 1, .name⟩) :: outer.lowered
  | fn outer self params referenced => lowerFn outer.lowered (outer.depth + 1) self params referenced

/-! ## Tables -/

/-- The special forms that `lower_list` knows. -/
def loweredForms : List String :=
  ["def", "fn*", "fn", "if", "do", "let*", "let", "loop*", "loop", "recur", "quote", "var",
    "set!", "throw", "try", "defn", "defn-", "defmacro", "defonce", "and", "or", ".", "ns",
    "require", "letfn", "in-ns", "alias", "defprotocol", "extend-type", "extend-protocol",
    "defmulti", "defmethod", "defrecord", "deftype", "reify", "load-file", "binding", "locking",
    "with-out-str", "await"]

/-- `SPECIAL_FORMS` of the tree-walker. -/
def specialForms : List String := "macroexpand" :: "macroexpand-1" :: loweredForms

/-- How many operands a call of a core function is lowered with. -/
inductive CallShape where
  /-- Fewer are malformed. -/
  | atLeast (n : Nat)
  /-- With any other number the symbol is lowered like a value. -/
  | among (arities : List Nat)

/-- The names of `try_inline_expansion` and `resolve_known_fn`. -/
def coreTable : List (CallShape × List String) :=
  [(.atLeast 1, ["inc", "dec", "unchecked-inc", "unchecked-inc-int", "unchecked-dec",
      "unchecked-dec-int", "unchecked-negate", "unchecked-negate-int", "not", "zero?", "pos?",
      "neg?", "even?", "odd?", "true?", "false?", "empty?"]),
    (.atLeast 2, ["not=", "max", "min"]),
    (.atLeast 0, ["+", "*"]),
    (.atLeast 1, ["-", "/", "rem", "mod", "unchecked-add", "unchecked-add-int", "unchecked-subtract",
      "unchecked-subtract-int", "unchecked-multiply", "unchecked-multiply-int", "=", "<", ">",
      "<=", ">="]),
    (.atLeast 0, ["vector", "hash-map", "hash-set", "list", "peek", "pop", "vec", "mapcat",
      "repeatedly", "case=", "str", "println", "concat", "merge", "swap!", "juxt", "comp",
      "partial"]),
    (.atLeast 2, ["apply"]),
    (.among [1], ["count", "transient", "persistent!", "first", "rest", "next", "seq", "lazy-seq",
      "make-lazy-seq", "alength", "nil?", "seq?", "vector?", "map?", "deref", "reverse", "sort",
      "keys", "vals", "number?", "string?", "keyword?", "symbol?", "boolean?", "int?", "prn",
      "print", "atom", "frequencies", "complement"]),
    (.among [2], ["dissoc", "conj", "disj", "get", "nth", "contains?", "conj!", "cons", "aget",
      "identical?", "map", "filter", "mapv", "filterv", "some", "every?", "take", "drop",
      "sort-by", "get-in", "reset!", "group-by", "keep", "remove", "map-indexed", "zipmap"]),
    (.among [3], ["assoc", "assoc!", "aset", "update", "assoc-in"]),
    (.among [0, 1], ["pr"]),
    (.among [2, 3], ["reduce", "into"]),
    (.among [1, 2, 3], ["range"]),
    (.among [2, 3, 4], ["partition"])]

/-- The names that a `KnownFn` of another function is found by: `Rem` and `LazySeq`. -/
def borrowedNames : List (String × String) := [("mod", "rem"), ("lazy-seq", "make-lazy-seq")]

/-- The vars of `clojure.core` that are registered with the function of another var. -/
def sharedFns : List (String × String) :=
  ["add", "subtract", "multiply", "inc", "dec", "negate"].map fun op =>
    ("unchecked-" ++ op ++ "-int", "unchecked-" ++ op)

def renamed (table : List (String × String)) (name : Text) : Text :=
  ((table.find? fun entry => entry.1.toList == name).map fun entry => entry.2.toList).getD name

/-- The function that a var of `clojure.core` holds, by the first name it is registered under. -/
def coreFn (name : Text) : Text := renamed sharedFns name

/-- The function that lowering takes a name in the table for. -/
def knownFn (name : Text) : Text := coreFn (renamed borrowedNames name)

def namedIn (table : List String) (name : Text) : Bool := table.any (fun entry => entry.toList == name)

def callShape (name : Text) : Option CallShape :=
  (coreTable.find? (fun entry => namedIn entry.2 name)).map Prod.fst

/-! ## Symbols -/

/-- `"clojure.core"`. -/
def coreNs : Text := ['c', 'l', 'o', 'j', 'u', 'r', 'e', '.', 'c', 'o', 'r', 'e']

/-- The code does what the tree-walker resolves to: a core function is the one that a var of
`clojure.core` holds. -/
def Denotation.means : Denotation → Denotation → Bool
  | core fn, global v => v.ns == coreNs && coreFn v.name == fn
  | d, resolved => d == resolved

/-- A symbol without the qualifier `clojure.core/`, by which special forms are found. -/
def bareName (s : Text) : Text :=
  if (coreNs ++ ['/']).isPrefixOf s then s.drop (coreNs.length + 1) else s

/-- `.method`, and neither `.` nor `..`. -/
def isMethod : Text → Bool
  | ['.'] | ['.', '.'] => false
  | '.' :: _ => true
  | _ => false

/-- A symbol at a place. -/
structure Occurrence where
  globals : GlobalEnv
  /-- The namespace of the code. -/
  ns : Text
  scope : Scope
  symbol : Text
  /-- Whether the var of the function that is lowered still holds it. -/
  current : Bool
  mentioned : scope.Mentions symbol
  interned : current = true → scope.topName = some symbol →
    globals.lookupInNs ns symbol = some ⟨ns, symbol⟩

/-- Where the symbol stands: a value, or the head of a call with so many operands. -/
inductive Position where
  | value
  | head (argc : Nat)

namespace Occurrence

-- the names that evaluate to themselves if there is no var
variable (isJvmClassName : Text → Bool) (o : Occurrence)

/-- A local. The name of the function that is lowered denotes its var as long as that holds it. -/
def denote : Denotation → Denotation
  | .local ⟨0, .self⟩ => if o.current then .global ⟨o.ns, o.symbol⟩ else .local ⟨0, .self⟩
  | d => d

/-- The constructor that `Type.` stands for. -/
def constructor? : Option VarRef :=
  if o.symbol.getLast? = some '.' ∧ o.symbol.dropLast ≠ [] then
    o.globals.lookupInNs o.ns ('-' :: '>' :: o.symbol.dropLast)
  else none

/-- The namespace of a qualifier, which in a pinned namespace may be its name without the commit. -/
def qualifiedNs (qualifier : Text) : Text :=
  let resolved := o.globals.resolveNs o.ns qualifier
  if o.ns ≠ resolved ∧ baseNsName o.ns = resolved then o.ns else resolved

/-- `eval_symbol` behind the locals. -/
def evalGlobal : Denotation :=
  match o.globals.lookupInNs o.ns o.symbol with
  | some v => .global v
  | none =>
    match (symbolParts o.symbol).namespace? with
    | some qualifier =>
      match o.globals.lookupInNs (o.qualifiedNs qualifier) (symbolParts o.symbol).name with
      | some v => .global v
      | none => .unresolved
    | none =>
      match o.constructor? with
      | some v => .global v
      | none => if isJvmClassName o.symbol then .className o.symbol else .unresolved

/-- `eval_symbol`. A symbol with a commit is never a local. -/
def evalSymbol : Denotation :=
  match (symbolParts o.symbol).version with
  | some commit =>
    let ns := match (symbolParts o.symbol).namespace? with
      | some qualifier => o.globals.resolveNs o.ns qualifier
      | none => o.ns
    .versioned (baseNsName ns) (symbolParts o.symbol).name commit
  | none =>
    match lookupLocal o.scope.frames o.symbol with
    | some d => o.denote d
    | none => o.evalGlobal isJvmClassName

/-- What the tree-walker resolves the symbol to (`eval_list` for the head of a call). -/
def resolved : Position → Denotation
  | .value => o.evalSymbol isJvmClassName
  | .head _ =>
    if namedIn specialForms (bareName o.symbol) then .special (bareName o.symbol)
    else if isMethod o.symbol then .method o.symbol
    else o.evalSymbol isJvmClassName

/-- `load_global_value`. -/
def loadGlobal (qualifier name : Text) : Denotation :=
  match (splitVersion name).2 with
  | some commit =>
    .versioned (baseNsName (o.globals.resolveNs o.ns qualifier)) (splitVersion name).1 commit
  | none =>
    match o.globals.lookupVarInNs (o.globals.resolveNs o.ns qualifier) name with
    | some v => if o.globals.unbound.contains v then .unresolved else .global v
    | none =>
      match o.globals.lookupInNs o.ns (qualifier ++ '/' :: name) with
      | some v => .global v
      | none => if isJvmClassName name then .className name else .unresolved

/-- `lower_symbol`, and what the code loads. -/
def lowerSymbol : Denotation :=
  match lookupLocal o.scope.lowered o.symbol with
  | some d => d
  | none => o.loadGlobal isJvmClassName (splitSym o.symbol o.ns).1 (splitSym o.symbol o.ns).2

/-- `resolve_macro`, which looks at namespaces only. -/
def resolveMacro : Option VarRef :=
  let parts := symbolParts o.symbol
  let ns := match parts.namespace? with
    | some qualifier => o.globals.resolveNs o.ns qualifier
    | none => o.ns
  (o.globals.lookupInNs ns parts.name).filter (o.globals.macros.contains ·)

/-- What the code calls for a symbol at the head (`lower_list`, `lower_call`), if lowering does not
fail. -/
def lowerCall (argc : Nat) : Option Denotation :=
  if namedIn loweredForms (bareName o.symbol) then some (.special (bareName o.symbol))
  else if isMethod (bareName o.symbol) then
    if argc = 0 then none else some (.method (bareName o.symbol))
  else
    match callShape (stripNsPrefix o.symbol) with
    | some (.atLeast n) =>
      if argc < n then none else some (.core (knownFn (stripNsPrefix o.symbol)))
    | some (.among arities) =>
      if argc ∈ arities then some (.core (knownFn (stripNsPrefix o.symbol)))
      else some (o.lowerSymbol isJvmClassName)
    | none => some (o.lowerSymbol isJvmClassName)

/-- The head of a list is expanded first if it names a macro (`macroexpand_all`). -/
def lowerHead (argc : Nat) : Option Denotation :=
  match o.resolveMacro with
  | some v => some (.global v)
  | none => o.lowerCall isJvmClassName argc

/-- What the lowered code denotes. -/
def lowered : Position → Option Denotation
  | .value => some (o.lowerSymbol isJvmClassName)
  | .head argc => o.lowerHead isJvmClassName argc

end Occurrence

end Clojurust.Ir
