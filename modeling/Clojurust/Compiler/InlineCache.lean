import Mathlib.Logic.Function.Basic

/-!
# Inline caches of protocol calls

`rt_call_ic` (`crates/cljrs-compiler/src/rt_abi.rs`) at one call site, and `apply_value`, `type_tag_of`
and `type_tag_matches` (`crates/cljrs-env/src/apply.rs`).

* `State.callIc` — a call through the cache; `State.applyValue` — the implementation without it;
* `Steady`, `Apt` — the histories without a reused address, and the entries that a call may take;
* `Inv` — an entry of the present generation is what its tag has;
* `inline_cache_transparent_iff` — the histories in which every call gets its implementation.

What an implementation does with the arguments is left out: a call is the function it chooses.
-/

namespace Clojurust.Compiler.InlineCache

/-! ## Tags -/

/-- The variants of a value with a tag of their own. -/
inductive Kind where
  | nil | bool | long | double | bigInt | bigDecimal | ratio | char | str | pattern | keyword | symbol
  | list | cons | lazySeq | vector | map | set | fn | nativeFunction | protocolFn | multiFn | atom | var
  | protocol | volatile | delay | promise | future | agent | resource

def Kind.tag : Kind → String
  | nil => "nil"
  | bool => "Boolean"
  | long => "Long"
  | double => "Double"
  | bigInt => "BigInt"
  | bigDecimal => "BigDecimal"
  | ratio => "Ratio"
  | char => "Character"
  | str => "String"
  | pattern => "Pattern"
  | keyword => "Keyword"
  | symbol => "Symbol"
  | list | cons | lazySeq => "List"
  | vector => "Vector"
  | map => "Map"
  | set => "Set"
  | fn | nativeFunction | protocolFn | multiFn => "Fn"
  | atom => "Atom"
  | var => "Var"
  | protocol => "Protocol"
  | volatile => "Volatile"
  | delay => "Delay"
  | promise => "Promise"
  | future => "Future"
  | agent => "Agent"
  | resource => "Resource"

variable {F : Type}

/-- A value as dispatch sees it, with the functions its metadata has under qualified symbols. -/
inductive Receiver (F : Type) where
  | plain (kind : Kind)
  | typeInstance (tag : String)
  | nativeObject (tag : String)
  | withMeta (inner : Receiver F) (metadata : String → String → Option F)
  | other

namespace Receiver

def typeTagOf : Receiver F → String
  | plain kind => kind.tag
  | typeInstance tag | nativeObject tag => tag
  | withMeta inner _ => inner.typeTagOf
  | other => "Object"

def typeTagMatches (tag : String) : Receiver F → Bool
  | plain kind => kind.tag = tag
  | typeInstance tag' | nativeObject tag' => tag' = tag
  -- metadata is not looked through
  | withMeta _ _ | other => "Object" = tag

end Receiver

/-! ## Calls -/

structure Protocol where
  id : Nat
  ns : String
  extendViaMetadata : Bool
  deriving DecidableEq

structure ProtocolFn where
  address : Nat
  protocol : Protocol
  methodName : String

/-- The function that a receiver brings in its metadata. -/
def ProtocolFn.fromMetadata (pf : ProtocolFn) : Receiver F → Option F
  | .withMeta _ metadata =>
    if pf.protocol.extendViaMetadata then metadata pf.protocol.ns pf.methodName else none
  | _ => none

inductive Callee (F : Type) where
  | protocolFn (pf : ProtocolFn)
  | fn (f : F)

/-- An entry, with the callee it was made for and the number of extensions before. -/
structure Entry (F : Type) where
  callee : ProtocolFn
  extensions : Nat
  tag : String
  implFn : F

/-- The tables of the protocols and the cache of the site. -/
structure State (F : Type) where
  impls : Protocol → String → Option (String → Option F)
  extensions : Nat
  slot : Option (Entry F)

namespace State

variable (s : State F) (pf : ProtocolFn) (v : Receiver F)

/-- The function for a receiver by its type. -/
def dispatch : Option F :=
  let impls := s.impls pf.protocol
  (((impls v.typeTagOf).or (impls "Object")).or (impls "default")).bind (· pf.methodName)

def applyValue : Callee F → List (Receiver F) → Option F
  | .protocolFn pf, v :: _ => (pf.fromMetadata v).or (s.dispatch pf v)
  | .protocolFn _, [] => none
  | .fn f, _ => some f

/-- The implementation under the tag itself. -/
def exact (tag : String) : Option F := (s.impls pf.protocol tag).bind (· pf.methodName)

/-- The entry that the call takes. The generation has 64 bits. -/
def hit : Option (Entry F) :=
  s.slot.filter fun e => e.callee.address = pf.address ∧
    e.extensions % UInt64.size = s.extensions % UInt64.size ∧ v.typeTagMatches e.tag

def callIc : Callee F → List (Receiver F) → Option F × State F
  | .protocolFn pf, v :: args =>
    match pf.fromMetadata v, s.hit pf v, s.exact pf v.typeTagOf with
    | some f, _, _ => (some f, s)
    | none, some e, _ => (some e.implFn, s)
    | none, none, some f => (some f, { s with slot := some ⟨pf, s.extensions, v.typeTagOf, f⟩ })
    | none, none, none => (s.applyValue (.protocolFn pf) (v :: args), s)
  | callee, args => (s.applyValue callee args, s)

/-- Methods for some types, each merged with the one that is there. -/
def extend (protocol : Protocol) (tags : List String) (methods : List (String × (Option F → F))) :
    State F :=
  { s with
    extensions := s.extensions + 1
    impls := Function.update s.impls protocol <| tags.foldl (fun table tag =>
      Function.update table tag <| some <| methods.foldl (fun found method =>
        Function.update found method.1 (some (method.2 (found method.1))))
        ((table tag).getD fun _ => none)) (s.impls protocol) }

end State

inductive Event (F : Type) where
  | call (callee : Callee F) (args : List (Receiver F))
  | extend (protocol : Protocol) (tags : List String) (methods : List (String × (Option F → F)))

def Event.isExtend : Event F → Bool
  | .call _ _ => false
  | .extend _ _ _ => true

def State.step (s : State F) : Event F → State F
  | .call callee args => (s.callIc callee args).2
  | .extend protocol tags methods => s.extend protocol tags methods

/-- `P` holds at every call of a history. -/
def Along (P : State F → Callee F → List (Receiver F) → Prop) : State F → List (Event F) → Prop
  | _, [] => True
  | s, e :: es => (∀ callee args, e = .call callee args → P s callee args) ∧ Along P (s.step e) es

/-! ## Transparency -/

/-- No address is reused for another protocol function, and the generation does not come round. -/
structure Steady (history : List (Event F)) : Prop where
  addresses : ∀ pf args pf' args', .call (.protocolFn pf) args ∈ history →
    .call (.protocolFn pf') args' ∈ history → pf.address = pf'.address → pf = pf'
  generations : history.countP Event.isExtend < UInt64.size

/-- The entry that a call takes is for the tag of its receiver; if it is for another, which is then
`Object`, the protocol's table has nothing under the receiver's tag or the same method. -/
def Apt (s : State F) : Callee F → List (Receiver F) → Prop
  | .protocolFn pf, v :: _ => pf.fromMetadata v = none → ∀ e ∈ s.hit pf v, e.tag = v.typeTagOf ∨
    s.impls pf.protocol v.typeTagOf = none ∨ s.exact pf v.typeTagOf = s.exact pf "Object"
  | _, _ => True

/-- The entry of the site, before the calls and extensions that are to come. -/
structure Inv (s : State F) (e : Entry F) (history : List (Event F)) : Prop where
  present : e.extensions = s.extensions → s.exact e.callee e.tag = some e.implFn
  made : e.extensions ≤ s.extensions
  recent : s.extensions + history.countP Event.isExtend < e.extensions + UInt64.size
  callee : ∀ pf args, .call (.protocolFn pf) args ∈ history → e.callee.address = pf.address → e.callee = pf

variable {s : State F} {e : Entry F} {pf : ProtocolFn} {v : Receiver F} {history : List (Event F)}

theorem dispatch_of_exact {f : F} (h : s.exact pf v.typeTagOf = some f) : s.dispatch pf v = some f := by
  obtain ⟨methods, hmethods, hf⟩ := Option.bind_eq_some_iff.mp h
  simp [State.dispatch, hmethods, hf]

theorem Receiver.typeTagMatches_iff {tag : String} (h : v.typeTagMatches tag = true) :
    tag = v.typeTagOf ∨ tag = "Object" := by
  cases v <;> simp_all [typeTagMatches, typeTagOf]

/-- The entry that a call takes is the callee's own, from the present generation. -/
theorem Inv.taken {args : List (Receiver F)}
    (h : ∀ e ∈ s.slot, Inv s e (.call (.protocolFn pf) (v :: args) :: history))
    (hhit : s.hit pf v = some e) :
    s.exact pf e.tag = some e.implFn ∧ (e.tag = v.typeTagOf ∨ e.tag = "Object") := by
  simp only [State.hit, Option.filter_eq_some_iff, decide_eq_true_eq] at hhit
  obtain ⟨hslot, haddress, hgeneration, htag⟩ := hhit
  have hinv := h e hslot
  have hcallee : e.callee = pf := hinv.callee pf (v :: args) (by simp) haddress
  have hpresent : e.extensions = s.extensions := by
    have := hinv.made
    have := hinv.recent
    simp only [UInt64.size] at *
    omega
  exact ⟨hcallee ▸ hinv.present hpresent, Receiver.typeTagMatches_iff htag⟩

/-- A taken entry has the function that dispatch finds exactly if it is apt. -/
theorem dispatch_eq_iff (hexact : s.exact pf e.tag = some e.implFn)
    (htag : e.tag = v.typeTagOf ∨ e.tag = "Object") :
    some e.implFn = s.dispatch pf v ↔ e.tag = v.typeTagOf ∨
      s.impls pf.protocol v.typeTagOf = none ∨ s.exact pf v.typeTagOf = s.exact pf "Object" := by
  rcases htag with htag | htag
  · exact iff_of_true (dispatch_of_exact (htag ▸ hexact)).symm (.inl htag)
  · rw [htag] at hexact ⊢
    cases hown : s.impls pf.protocol v.typeTagOf with
    | none =>
      refine iff_of_true ?_ (.inr (.inl rfl))
      obtain ⟨methods, hmethods, hf⟩ := Option.bind_eq_some_iff.mp hexact
      simp [State.dispatch, hown, hmethods, hf]
    | some methods =>
      have hdispatch : s.dispatch pf v = s.exact pf v.typeTagOf := by
        simp [State.dispatch, State.exact, hown]
      rw [hdispatch, ← hexact]
      constructor
      · exact fun h => .inr (.inr h.symm)
      · rintro (h | h | h)
        · rw [h]
        · cases h
        · exact h.symm

theorem transparent_iff {callee : Callee F} {args : List (Receiver F)}
    (h : ∀ e ∈ s.slot, Inv s e (.call callee args :: history)) :
    (s.callIc callee args).1 = s.applyValue callee args ↔ Apt s callee args := by
  unfold State.callIc Apt
  split
  · rename_i pf v args
    rw [State.applyValue]
    split
    case h_1 hmeta => simp [hmeta]
    case h_2 e hmeta hhit =>
      obtain ⟨hexact, htag⟩ := Inv.taken h hhit
      simp only [hmeta, hhit, Option.none_or, Option.mem_some, forall_eq', forall_const]
      exact dispatch_eq_iff hexact htag
    case h_3 f hmeta hhit hexact => simp [hmeta, hhit, dispatch_of_exact hexact]
    case h_4 hmeta hhit _ => simp [hmeta, hhit]
  · simp

theorem Steady.tail {event : Event F} (h : Steady (event :: history)) : Steady history := by
  refine ⟨fun pf args pf' args' hpf hpf' => ?_, ?_⟩
  · exact h.addresses pf args pf' args' (.tail _ hpf) (.tail _ hpf')
  · exact Nat.lt_of_le_of_lt ((List.sublist_cons_self _ _).countP_le) h.generations

theorem Inv.tail {event : Event F} (h : Inv s e (event :: history)) (hkeep : event.isExtend = false) :
    Inv s e history := by
  refine ⟨h.present, h.made, ?_, fun pf args hpf => h.callee pf args (.tail _ hpf)⟩
  simpa [hkeep] using h.recent

theorem inv_step {event : Event F} (hsteady : Steady (event :: history))
    (h : ∀ e ∈ s.slot, Inv s e (event :: history)) : ∀ e ∈ (s.step event).slot, Inv (s.step event) e history := by
  cases event with
  | call callee args =>
    simp only [State.step, State.callIc]
    split
    · split
      case h_3 f _ _ hexact =>
        rintro e ⟨⟩
        refine ⟨fun _ => hexact, Nat.le_refl _, ?_, fun pf' args' hpf' => ?_⟩
        · exact Nat.add_lt_add_left hsteady.tail.generations _
        · exact hsteady.addresses _ _ pf' args' (.head _) (.tail _ hpf')
      all_goals exact fun e he => (h e he).tail rfl
    · exact fun e he => (h e he).tail rfl
  | extend protocol tags methods =>
    intro e he
    obtain ⟨-, hmade, hrecent, hcallee⟩ := h e he
    rw [List.countP_cons_of_pos rfl] at hrecent
    refine ⟨fun heq => ?_, Nat.le_succ_of_le hmade, ?_, fun pf args hpf => hcallee pf args (.tail _ hpf)⟩
    · simp only [State.step, State.extend] at heq
      omega
    · simp only [State.step, State.extend]
      omega

theorem along_iff (hsteady : Steady history) (h : ∀ e ∈ s.slot, Inv s e history) :
    Along (fun s callee args => (s.callIc callee args).1 = s.applyValue callee args) s history ↔
      Along Apt s history := by
  induction history generalizing s with
  | nil => rfl
  | cons event history ih =>
    simp only [Along, ih hsteady.tail (inv_step hsteady h)]
    refine and_congr_left' (forall₃_congr fun callee args hevent => ?_)
    subst hevent
    exact transparent_iff h

/-- **Inline caches.** The calls through a site get the implementations that `apply_value` chooses,
whatever is called and extended between them, exactly if every entry that is taken is apt. -/
theorem inline_cache_transparent_iff (impls : Protocol → String → Option (String → Option F))
    (extensions : Nat) (history : List (Event F)) (h : Steady history) :
    Along (fun s callee args => (s.callIc callee args).1 = s.applyValue callee args)
        ⟨impls, extensions, none⟩ history ↔
      Along Apt ⟨impls, extensions, none⟩ history :=
  along_iff h fun _ he => by cases he

/-- With an implementation for `Object` alone, a vector with metadata may take its entry. -/
theorem object_entry_taken :
    let area : ProtocolFn := ⟨0, ⟨0, "shapes", false⟩, "area"⟩
    let vector : Receiver String := .withMeta (.plain .vector) fun _ _ => none
    let history : List (Event String) := [.extend area.protocol ["Object"] [("area", fun _ => "any")],
      .call (.protocolFn area) [.other], .call (.protocolFn area) [vector]]
    Along (fun s callee args => (s.callIc callee args).1 = s.applyValue callee args)
        ⟨fun _ _ => none, 0, none⟩ history ↔ Along Apt ⟨fun _ _ => none, 0, none⟩ history :=
  inline_cache_transparent_iff _ _ _ ⟨by simp; grind, by decide⟩

/-- `Object` and `Vector` have an implementation each. The one for `Object` is cached, and called for a
vector with metadata. -/
theorem vector_with_metadata_taken_for_object :
    let area : ProtocolFn := ⟨0, ⟨0, "shapes", false⟩, "area"⟩
    let extend (f tag : String) : Event String := .extend area.protocol [tag] [("area", fun _ => f)]
    let vector : Receiver String := .withMeta (.plain .vector) fun _ _ => none
    let s := [extend "any" "Object", extend "vector" "Vector", .call (.protocolFn area) [.other]].foldl
      State.step ⟨fun _ _ => none, 0, none⟩
    (s.callIc (.protocolFn area) [vector]).1 = some "any" ∧
      s.applyValue (.protocolFn area) [vector] = some "vector" := by
  decide

end Clojurust.Compiler.InlineCache
