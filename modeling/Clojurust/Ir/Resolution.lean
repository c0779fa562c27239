import Mathlib.Data.List.TakeDrop
import Clojurust.Ir.Names

/-!
# Symbols respect scopes and namespaces

When lowered code denotes what the tree-walker resolves a symbol to, in terms of the binders around it and
of what the namespaces hold.

* `Scope.Binds` — the symbol is bound around a place; `Scope.Respects` — no function around it takes its
  name in a way of its own;
* `Scope.found` — what the two tiers find among their locals, by induction on the scope;
* `Occurrence.Plain` — the symbol is found in the namespaces in one way only;
* `Occurrence.NamesVar` — no binder is in the way of a var, by which calls of macros and of core functions
  are judged;
* `Occurrence.Respected` — the places where the lowered symbol is the one of the tree-walker;
* `lowered_symbol_iff` — lowered code denotes what the tree-walker resolves exactly there.
-/

namespace Clojurust.Ir

open List Option

/-! ## Frames -/

section Frames

variable {frame : Frame} {depth : Nat} {params : List Text} {s : Text}

theorem foldl_bind_of_not_mem : ∀ {params : List Text} {frame : Frame} (k : Nat), s ∉ params →
    (params.zipIdx k).foldl (fun f p => f.bindLocal p.1 (.local ⟨depth, .param p.2⟩)) frame s = frame s
  | [], _, _, _ => rfl
  | p :: params, frame, k, hs => by
    rw [mem_cons, not_or] at hs
    rw [zipIdx_cons, foldl_cons, foldl_bind_of_not_mem (k + 1) hs.2]
    exact if_neg hs.1

theorem foldl_bind_of_mem : ∀ {params : List Text} (k : Nat), s ∈ params →
    ∃ i, ∀ (frame : Frame) (depth : Nat), (params.zipIdx k).foldl
      (fun f p => f.bindLocal p.1 (.local ⟨depth, .param p.2⟩)) frame s =
        some (.local ⟨depth, .param i⟩)
  | p :: params, k, hs => by
    by_cases hrest : s ∈ params
    · obtain ⟨i, hi⟩ := foldl_bind_of_mem (k + 1) hrest
      exact ⟨i, fun frame depth => hi _ depth⟩
    · obtain rfl := (mem_cons.mp hs).resolve_right hrest
      refine ⟨k, fun frame depth => ?_⟩
      rw [zipIdx_cons, foldl_cons, foldl_bind_of_not_mem (k + 1) hrest]
      exact if_pos rfl

theorem bindParams_of_not_mem (hs : s ∉ params) : frame.bindParams depth params s = frame s :=
  foldl_bind_of_not_mem 0 hs

theorem bindParams_of_mem (hs : s ∈ params) : ∃ i, ∀ (frame : Frame) (depth : Nat),
    frame.bindParams depth params s = some (.local ⟨depth, .param i⟩) :=
  foldl_bind_of_mem 0 hs

theorem bindSelf_of_ne {self : Option Text} (h : self ≠ some s) : frame.bindSelf depth self s = frame s := by
  cases self with
  | none => rfl
  | some => exact if_neg fun hs => h (congrArg some hs.symm)

theorem bindSelf_self : frame.bindSelf depth (some s) s = some (.local ⟨depth, .self⟩) := if_pos rfl

theorem lookupLocal_cons (frames : List Frame) :
    lookupLocal (frame :: frames) s = (frame s).or (lookupLocal frames s) := by
  rw [lookupLocal, findSome?_cons]
  cases frame s <;> rfl

end Frames

/-! ## Functions -/

section LowerFn

variable {frames : List Frame} {depth : Nat} {self : Option Text} {params referenced : List Text}
  {s : Text}

theorem lookup_header (bound : Frame) : lookupLocal [headerFrame bound params, bound] s = bound s := by
  rw [lookupLocal_cons, lookupLocal_cons, headerFrame]
  by_cases hs : s ∈ params
  · rw [if_pos hs]
    cases bound s <;> rfl
  · rw [if_neg hs]
    cases bound s <;> rfl

theorem withSelfCell_of_ne (hself : self ≠ some s) :
    lookupLocal (withSelfCell frames depth self) s = lookupLocal frames s := by
  cases self with
  | none => rfl
  | some name =>
    rw [withSelfCell]
    split
    · have hne : s ≠ name := fun h => hself (congrArg some h.symm)
      rw [lookupLocal_cons, Frame.bindLocal, if_neg hne]
      rfl
    · rfl

theorem withSelfCell_self : lookupLocal (withSelfCell frames depth (some s)) s =
    some ((lookupLocal frames s).getD (.cell ⟨depth, .self⟩)) := by
  rw [withSelfCell]
  cases hlocal : lookupLocal frames s with
  | none =>
    rw [isNone_none, if_pos rfl, lookupLocal_cons, Frame.bindLocal, if_pos rfl]
    rfl
  | some d => grind

theorem arityFrame_of_ne (captured : Frame) (hself : self ≠ some s) :
    arityFrame captured depth self params s = captured.bindParams depth params s := by
  cases self with
  | none => rfl
  | some name =>
    have hne : s ≠ name := fun h => hself (congrArg some h.symm)
    rw [arityFrame]
    cases captured name with
    | none => rfl
    | some d => exact if_neg hne

end LowerFn

/-! ## Locals -/

namespace Scope

section Find

attribute [local simp] frames lowered

/-- What the tree-walker and the lowered code find for a symbol. -/
def Finds (scope : Scope) (s : Text) (walked lowered : Option Denotation) : Prop :=
  lookupLocal scope.frames s = walked ∧ lookupLocal scope.lowered s = lowered

variable {s name : Text} {self : Option Text} {params referenced : List Text} {outer : Scope}

theorem top_of_mem (hs : s ∈ params) : ∃ i, (top self params).Finds s
    (some (.local ⟨0, .param i⟩)) (some (.local ⟨0, .param i⟩)) := by
  obtain ⟨i, hi⟩ := bindParams_of_mem hs
  refine ⟨i, ?_, ?_⟩
  · rw [frames, lookupLocal_cons, hi]
    rfl
  · rw [lowered, lookupLocal_cons, hi]
    rfl

theorem top_of_not_mem (hs : s ∉ params) : (top self params).Finds s
    (if self = some s then some (.local ⟨0, .self⟩) else none) none := by
  rw [Finds, frames, lowered, lookupLocal_cons, lookupLocal_cons, bindParams_of_not_mem hs,
    bindParams_of_not_mem hs]
  refine ⟨?_, rfl⟩
  by_cases hself : self = some s
  · rw [if_pos hself, hself, bindSelf_self]
    rfl
  · rw [if_neg hself, bindSelf_of_ne hself]
    rfl

theorem bind_self : (bind outer s).Finds s (some (.local ⟨outer.depth + 1, .name⟩))
    (some (.local ⟨outer.depth + 1, .name⟩)) := by
  rw [Finds, frames, lowered, lookupLocal_cons, lookupLocal_cons, Frame.bindLocal, if_pos rfl]
  exact ⟨rfl, rfl⟩

theorem bind_of_ne (hs : s ≠ name) : (bind outer name).Finds s (lookupLocal outer.frames s)
    (lookupLocal outer.lowered s) := by
  rw [Finds, frames, lowered, lookupLocal_cons, lookupLocal_cons, Frame.bindLocal, if_neg hs]
  exact ⟨rfl, rfl⟩

theorem fn_of_mem (hself : self ≠ some s) (hs : s ∈ params) : ∃ i,
    (fn outer self params referenced).Finds s (some (.local ⟨outer.depth + 1, .param i⟩))
      (some (.local ⟨outer.depth + 1, .param i⟩)) := by
  obtain ⟨i, hi⟩ := bindParams_of_mem hs
  refine ⟨i, ?_, ?_⟩
  · rw [frames, lookupLocal_cons, hi]
    rfl
  · rw [lowered, lowerFn, lookup_header, arityFrame_of_ne _ hself, hi]

theorem fn_of_not_mem (hmention : s ∈ referenced) (hself : self ≠ some s) (hs : s ∉ params) :
    (fn outer self params referenced).Finds s (lookupLocal outer.frames s)
      (lookupLocal outer.lowered s) := by
  constructor
  · rw [frames, lookupLocal_cons, bindParams_of_not_mem hs, bindSelf_of_ne hself]
    rfl
  · rw [lowered, lowerFn, lookup_header, arityFrame_of_ne _ hself, bindParams_of_not_mem hs,
      if_pos hmention, withSelfCell_of_ne hself]

theorem frames_fn_self : ∃ place, lookupLocal (fn outer (some s) params referenced).frames s =
    some (.local ⟨outer.depth + 1, place⟩) ∧ (place = .self ↔ s ∉ params) := by
  by_cases hs : s ∈ params
  · obtain ⟨i, hi⟩ := bindParams_of_mem hs
    refine ⟨.param i, ?_, ⟨nofun, fun h => absurd hs h⟩⟩
    rw [frames, lookupLocal_cons, hi]
    rfl
  · refine ⟨.self, ?_, ⟨fun _ => hs, fun _ => rfl⟩⟩
    rw [frames, lookupLocal_cons, bindParams_of_not_mem hs, bindSelf_self]
    rfl

theorem lowered_fn_self (hmention : s ∈ referenced) :
    lookupLocal (fn outer (some s) params referenced).lowered s =
      some ((lookupLocal outer.lowered s).elim (.local ⟨outer.depth + 1, .self⟩) .dereference) := by
  rw [lowered, lowerFn, lookup_header, arityFrame]
  simp only [if_pos hmention, withSelfCell_self]
  rw [Frame.bindLocal, if_pos rfl]
  cases lookupLocal outer.lowered s <;> rfl

end Find

variable {s : Text} {current : Bool}

/-- What the symbol of a local is lowered to. -/
def IsLocal (d : Denotation) : Prop := (∃ b, d = .local b) ∨ ∃ inner, d = .deref inner

variable {d : Denotation}

theorem dereference_eq (h : IsLocal d) : d.dereference = .deref d := by
  rcases h with ⟨b, rfl⟩ | ⟨inner, rfl⟩ <;> rfl

/-- A binder around the place has the name, other than the function that is lowered. -/
def Binds (s : Text) : Scope → Prop
  | top _ params => s ∈ params
  | bind outer name => name = s ∨ outer.Binds s
  | fn outer self params _ => self = some s ∨ s ∈ params ∨ outer.Binds s

/-- The scopes in which lowered code finds the local of the tree-walker: no function takes the symbol
both for its own name and for a parameter or a local around it. The name of the function that is lowered
is its var, which has to hold it. -/
def Respects (current : Bool) (s : Text) : Scope → Prop
  | top self params => self = some s → s ∈ params ∨ current = true
  | bind outer name => name = s ∨ outer.Respects current s
  | fn outer self params _ =>
    if self = some s then s ∉ params ∧ ¬ outer.Binds s
    else s ∈ params ∨ outer.Respects current s

/-- The local of both tiers, other than the name of the function that is lowered. -/
def Shared (scope : Scope) (s : Text) : Prop :=
  ∃ b, b ≠ ⟨0, .self⟩ ∧ lookupLocal scope.frames s = some (.local b) ∧
    lookupLocal scope.lowered s = some (.local b)

/-- Both tiers find one local, or neither finds any; or the tree-walker alone finds the name of the
function that is lowered; or they find different locals. -/
inductive Found (current : Bool) (s : Text) (scope : Scope) : Prop
  | shared (hrespects : scope.Respects current s) (hbinds : scope.Binds s) (h : scope.Shared s)
  | free (hrespects : scope.Respects current s) (hbinds : ¬ scope.Binds s)
    (htop : scope.topName ≠ some s) (h : scope.Finds s none none)
  | self (hrespects : scope.Respects current s ↔ current = true) (hbinds : ¬ scope.Binds s)
    (htop : scope.topName = some s) (h : scope.Finds s (some (.local ⟨0, .self⟩)) none)
  | apart (hrespects : ¬ scope.Respects current s) (hbinds : scope.Binds s) (b : Binder) (d : Denotation)
    (hb : b ≠ ⟨0, .self⟩) (h : scope.Finds s (some (.local b)) (some d)) (hne : d ≠ .local b)
    (hlocal : IsLocal d)

theorem Found.locals {scope : Scope} (h : scope.Found current s) :
    (∀ d, lookupLocal scope.frames s = some d → ∃ b, d = .local b) ∧
    ∀ d, lookupLocal scope.lowered s = some d → IsLocal d := by
  cases h with
  | shared _ _ h =>
    obtain ⟨b, -, hframes, hlowered⟩ := h
    grind [IsLocal]
  | free _ _ _ h | self _ _ _ h | apart _ _ _ _ _ h =>
    obtain ⟨hframes, hlowered⟩ := h
    grind [IsLocal]

theorem Found.lowered_eq_none_iff {scope : Scope} (h : scope.Found current s) :
    lookupLocal scope.lowered s = none ↔ ¬ scope.Binds s := by
  cases h with
  | shared _ hbinds h =>
    obtain ⟨b, -, -, hlowered⟩ := h
    exact iff_of_false (by rw [hlowered]; exact some_ne_none _) (not_not_intro hbinds)
  | free _ hbinds _ h | self _ hbinds _ h => exact iff_of_true h.2 hbinds
  | apart _ hbinds b d _ h => exact iff_of_false (by rw [h.2]; exact some_ne_none _) (not_not_intro hbinds)

/-- A scope that adds nothing to what is found. -/
theorem Found.inherit {outer scope : Scope} (h : outer.Found current s)
    (hfinds : scope.Finds s (lookupLocal outer.frames s) (lookupLocal outer.lowered s))
    (htop : scope.topName = outer.topName) (hbinds : scope.Binds s ↔ outer.Binds s)
    (hrespects : scope.Respects current s ↔ outer.Respects current s) : scope.Found current s := by
  obtain ⟨hframes, hlowered⟩ := hfinds
  cases h with
  | shared hr hb h =>
    obtain ⟨b, hne, h⟩ := h
    exact .shared (hrespects.mpr hr) (hbinds.mpr hb) ⟨b, hne, hframes.trans h.1, hlowered.trans h.2⟩
  | free hr hb ht h =>
    exact .free (hrespects.mpr hr) (mt hbinds.mp hb) (htop ▸ ht) ⟨hframes.trans h.1, hlowered.trans h.2⟩
  | self hr hb ht h =>
    exact .self (hrespects.trans hr) (mt hbinds.mp hb) (htop.trans ht)
      ⟨hframes.trans h.1, hlowered.trans h.2⟩
  | apart hr hb b d hne h hd hlocal =>
    exact .apart (mt hrespects.mp hr) (hbinds.mpr hb) b d hne ⟨hframes.trans h.1, hlowered.trans h.2⟩ hd
      hlocal

theorem found (current : Bool) : ∀ {scope : Scope}, scope.Mentions s → scope.Found current s
  | top self params, _ => by
    by_cases hs : s ∈ params
    · obtain ⟨i, hframes, hlowered⟩ := top_of_mem hs
      exact .shared (fun _ => .inl hs) hs ⟨_, by rintro ⟨⟩, hframes, hlowered⟩
    · obtain ⟨hframes, hlowered⟩ := top_of_not_mem hs
      by_cases hself : self = some s
      · rw [if_pos hself] at hframes
        exact .self (by simp [Respects, hself, hs]) hs hself ⟨hframes, hlowered⟩
      · rw [if_neg hself] at hframes
        exact .free (fun h => absurd h hself) hs hself ⟨hframes, hlowered⟩
  | bind outer name, hmention => by
    by_cases hs : s = name
    · subst hs
      exact .shared (.inl rfl) (.inl rfl) ⟨_, by rintro ⟨⟩, bind_self.1, bind_self.2⟩
    · have houter : outer.Found current s := found current hmention
      exact houter.inherit (bind_of_ne hs) rfl (or_iff_right (Ne.symm hs)) (or_iff_right (Ne.symm hs))
  | fn outer self params referenced, hmention => by
    by_cases hself : self = some s
    · subst hself
      obtain ⟨place, hframes, hplace⟩ := @frames_fn_self s params referenced outer
      have hlowered := @lowered_fn_self s params referenced outer hmention.1
      have hiff := (found current hmention.2).lowered_eq_none_iff
      cases hlocal : lookupLocal outer.lowered s with
      | none =>
        rw [hlocal] at hlowered
        have houter := hiff.mp hlocal
        by_cases hs : s ∈ params
        · -- the function stands for the parameter
          refine .apart (by simp [Respects, hs]) (.inl rfl) _ _ (by rintro ⟨⟩) ⟨hframes, hlowered⟩ ?_
            (.inl ⟨_, rfl⟩)
          grind
        · obtain rfl := hplace.mpr hs
          exact .shared (by simp [Respects, hs, houter]) (.inl rfl) ⟨_, by rintro ⟨⟩, hframes, hlowered⟩
      | some d =>
        rw [hlocal, elim_some, dereference_eq ((found current hmention.2).locals.2 d hlocal)] at hlowered
        have houter : outer.Binds s := by
          by_contra hfree
          exact some_ne_none d (hlocal.symm.trans (hiff.mpr hfree))
        exact .apart (by simp [Respects, houter]) (.inl rfl) _ _ (by rintro ⟨⟩) ⟨hframes, hlowered⟩
          (by rintro ⟨⟩) (.inr ⟨_, rfl⟩)
    · by_cases hs : s ∈ params
      · obtain ⟨i, hframes, hlowered⟩ := fn_of_mem hself hs
        exact .shared (by simp [Respects, hself, hs]) (.inr (.inl hs)) ⟨_, by rintro ⟨⟩, hframes, hlowered⟩
      · exact (found current hmention.2).inherit (fn_of_not_mem hmention.1 hself hs) rfl
          (by simp [Binds, hself, hs]) (by simp [Respects, hself, hs])

end Scope

/-! ## Globals -/

section Means

open Denotation (means)

variable {d resolved : Denotation} {fn : Text}

theorem means_iff_eq (h : ∀ fn, d ≠ .core fn) : d.means resolved = true ↔ d = resolved := by
  cases d with
  | core fn => exact absurd rfl (h fn)
  | _ => exact beq_iff_eq

theorem means_core_iff (h : ∀ fn, resolved ≠ .core fn) : means (.core fn) resolved = true ↔
    ∃ name, resolved = .global ⟨coreNs, name⟩ ∧ coreFn name = fn := by
  cases resolved with
  | core fn => exact absurd rfl (h fn)
  | global v =>
    obtain ⟨ns, name⟩ := v
    rw [means, Bool.and_eq_true, beq_iff_eq, beq_iff_eq]
    grind
  | _ => exact iff_of_false (by simp [means]) (by rintro ⟨_, ⟨⟩, _⟩)

end Means

section Slash

variable {s before behind : Text}

theorem splitSlash_cases (s : Text) : (splitSlash s = none ∧ '/' ∉ s) ∨
    ∃ before behind, splitSlash s = some (before, behind) ∧ s = before ++ '/' :: behind := by
  rw [splitSlash, span_eq_takeWhile_dropWhile]
  have htext : s.takeWhile (· != '/') ++ s.dropWhile (· != '/') = s := takeWhile_append_dropWhile
  cases hdrop : s.dropWhile (· != '/') with
  | nil =>
    refine .inl ⟨rfl, fun hmem => ?_⟩
    have hall := dropWhile_eq_nil_iff.mp hdrop '/' hmem
    exact absurd hall (by decide)
  | cons c =>
    have hc : (c != '/') = false := by
      have hhead := head?_dropWhile_not (· != '/') s
      rw [hdrop] at hhead
      simpa using hhead
    grind

theorem splitVersion_of_none (h : (splitVersion s).2 = none) : (splitVersion s).1 = s := by
  rw [splitVersion] at h ⊢
  grind

theorem splitNamespace_eq (s : Text) : splitNamespace s = (splitSlash s).elim (none, s) fun parts =>
    if parts.1 = [] ∨ parts.2 = [] then (none, s) else (some parts.1, parts.2) := by
  rw [splitNamespace, splitSlash, span_eq_takeWhile_dropWhile]
  cases s.takeWhile (· != '/') <;> cases s.dropWhile (· != '/') with
  | nil => rfl
  | cons c behind => cases behind <;> rfl

theorem symbolParts_of_none (h : splitSlash s = none) :
    symbolParts s = ⟨none, (splitVersion s).1, (splitVersion s).2⟩ := by
  rw [symbolParts, splitNamespace_eq, h]
  rfl

theorem symbolParts_of_some (h : splitSlash s = some (before, behind)) : symbolParts s =
    if before = [] ∨ behind = [] then ⟨none, (splitVersion s).1, (splitVersion s).2⟩
    else ⟨some before, (splitVersion behind).1, (splitVersion behind).2⟩ := by
  rw [symbolParts, splitNamespace_eq, h, elim_some]
  dsimp only
  by_cases hends : before = [] ∨ behind = []
  · rw [if_pos hends, if_pos hends]
  · rw [if_neg hends, if_neg hends]

end Slash

namespace Occurrence

variable (isJvmClassName : Text → Bool) (o : Occurrence)

/-- The symbol and its namespace are written in a way that both tiers read alike, and no more than one
global is found for it. -/
@[grind cases]
structure Plain : Prop where
  unpinned : (splitVersion o.ns).2 = none
  notAliased : o.globals.resolveAlias o.ns o.ns = none
  slash : '/' ∈ o.symbol → o.symbol = ['/'] ∨ (symbolParts o.symbol).namespace?.isSome
  unqualified : (symbolParts o.symbol).namespace? = none →
    (∀ v, o.globals.lookupVarInNs o.ns o.symbol = some v → o.globals.unbound.contains v = false) ∧
      o.globals.lookupInNs o.ns (o.ns ++ '/' :: o.symbol) = none ∧ o.constructor? = none
  qualified : ∀ qualifier, (symbolParts o.symbol).namespace? = some qualifier →
    (o.globals.lookupInNs o.ns o.symbol = none ∨
        o.globals.lookupVarInNs (o.globals.resolveNs o.ns qualifier) (symbolParts o.symbol).name = none) ∧
      isJvmClassName (symbolParts o.symbol).name = false

theorem split_cases (hslash : '/' ∈ o.symbol → o.symbol = ['/'] ∨ (symbolParts o.symbol).namespace?.isSome)
    (hpinned : (splitVersion o.ns).2 = none) :
    ((symbolParts o.symbol).namespace? = none ∧ splitSym o.symbol o.ns = (o.ns, o.symbol) ∧
        (symbolParts o.symbol).name = (splitVersion o.symbol).1 ∧
        (symbolParts o.symbol).version = (splitVersion o.symbol).2) ∨
      ∃ qualifier name, o.symbol = qualifier ++ '/' :: name ∧
        (symbolParts o.symbol).namespace? = some qualifier ∧
        splitSym o.symbol o.ns = (qualifier, name) ∧
        (symbolParts o.symbol).name = (splitVersion name).1 ∧
        (symbolParts o.symbol).version = (splitVersion name).2 := by
  obtain ⟨hsplit, hnone⟩ | ⟨before, behind, hsplit, htext⟩ := splitSlash_cases o.symbol
  · have hroot : o.symbol ≠ ['/'] := fun h => hnone (h ▸ mem_singleton_self _)
    rw [symbolParts_of_none hsplit, splitSym, if_neg hroot, hsplit]
    exact .inl ⟨rfl, rfl, rfl, rfl⟩
  · by_cases hroot : o.symbol = ['/']
    · left
      rw [hroot]
      exact ⟨rfl, rfl, rfl, rfl⟩
    · right
      have hmem : '/' ∈ o.symbol := htext ▸ mem_append_right _ (.head _)
      have hsome := (hslash hmem).resolve_left hroot
      have hends : ¬ (before = [] ∨ behind = []) := by
        intro hends
        rw [symbolParts_of_some hsplit, if_pos hends] at hsome
        cases hsome
      refine ⟨before, behind, htext, ?_⟩
      rw [symbolParts_of_some hsplit, if_neg hends, splitSym, if_neg hroot, hsplit, hpinned]
      simp

variable {o isJvmClassName}

variable {qualifier name : Text} {argc : Nat} {d : Denotation}

theorem loadGlobal_of_var {v : VarRef} (hversion : (splitVersion name).2 = none)
    (hvar : o.globals.lookupVarInNs (o.globals.resolveNs o.ns qualifier) name = some v) :
    o.loadGlobal isJvmClassName qualifier name =
      (o.globals.lookupInNs (o.globals.resolveNs o.ns qualifier) name).elim .unresolved .global := by
  have hlookup : o.globals.lookupInNs (o.globals.resolveNs o.ns qualifier) name =
      if !o.globals.unbound.contains v then some v else none := by
    rw [GlobalEnv.lookupInNs, hvar, filter_some]
  rw [loadGlobal, hversion, hvar, hlookup]
  grind

theorem loadGlobal_of_none (hversion : (splitVersion name).2 = none)
    (hvar : o.globals.lookupVarInNs (o.globals.resolveNs o.ns qualifier) name = none) :
    o.loadGlobal isJvmClassName qualifier name =
      (o.globals.lookupInNs o.ns (qualifier ++ '/' :: name)).elim
        (if isJvmClassName name then .className name else .unresolved) .global := by
  rw [loadGlobal, hversion, hvar]
  grind

/-- Behind the locals both tiers find the same. -/
theorem Plain.loadGlobal_eq (h : o.Plain isJvmClassName)
    (hversion : (symbolParts o.symbol).version = none) :
    o.loadGlobal isJvmClassName (splitSym o.symbol o.ns).1 (splitSym o.symbol o.ns).2 =
      o.evalGlobal isJvmClassName := by
  have hself : o.globals.resolveNs o.ns o.ns = o.ns := by rw [GlobalEnv.resolveNs, h.notAliased]; rfl
  rw [evalGlobal]
  obtain ⟨hns, hsplit, -, hv⟩ | ⟨qualifier, name, htext, hns, hsplit, hname, hv⟩ :=
    o.split_cases h.slash h.unpinned
  · rw [hsplit, hns]
    rw [hv] at hversion
    obtain ⟨hbound, hslashed, hconstructor⟩ := h.unqualified hns
    cases hvar : o.globals.lookupVarInNs o.ns o.symbol with
    | some v =>
      have hlookup : o.globals.lookupInNs o.ns o.symbol = some v := by
        rw [GlobalEnv.lookupInNs, hvar, filter_some, hbound v hvar]
        rfl
      rw [loadGlobal_of_var hversion (by rw [hself]; exact hvar), hself, hlookup]
      rfl
    | none =>
      have hlookup : o.globals.lookupInNs o.ns o.symbol = none := by
        rw [GlobalEnv.lookupInNs, hvar, filter_none]
      rw [loadGlobal_of_none hversion (by rw [hself]; exact hvar), hslashed, hlookup, hconstructor]
      rfl
  · rw [hv] at hversion
    have hqualified := h.qualified qualifier hns
    have hnsname : o.qualifiedNs qualifier = o.globals.resolveNs o.ns qualifier := by
      rw [qualifiedNs, baseNsName, splitVersion_of_none h.unpinned]
      exact if_neg fun h => h.1 h.2
    rw [hname, splitVersion_of_none hversion] at hqualified
    rw [hsplit, hns, hname, splitVersion_of_none hversion]
    dsimp only
    rw [hnsname]
    cases hvar : o.globals.lookupVarInNs (o.globals.resolveNs o.ns qualifier) name with
    | some v =>
      have hlookup := hqualified.1.resolve_right (by rw [hvar]; exact some_ne_none v)
      rw [loadGlobal_of_var hversion hvar, hlookup]
      grind
    | none =>
      have hlookup : o.globals.lookupInNs (o.globals.resolveNs o.ns qualifier) name = none := by
        rw [GlobalEnv.lookupInNs, hvar, filter_none]
      rw [loadGlobal_of_none hversion hvar, ← htext, hqualified.2, hlookup]
      grind

theorem Plain.loadGlobal_versioned (h : o.Plain isJvmClassName) {commit : Text}
    (hversion : (symbolParts o.symbol).version = some commit) :
    o.loadGlobal isJvmClassName (splitSym o.symbol o.ns).1 (splitSym o.symbol o.ns).2 =
      o.evalSymbol isJvmClassName := by
  have hself : o.globals.resolveNs o.ns o.ns = o.ns := by rw [GlobalEnv.resolveNs, h.notAliased]; rfl
  rw [evalSymbol, loadGlobal, hversion]
  obtain ⟨hns, hsplit, hname, hv⟩ | ⟨qualifier, name, -, hns, hsplit, hname, hv⟩ :=
    o.split_cases h.slash h.unpinned
  all_goals grind

/-! ## Positions -/

theorem loadGlobal_ne : (∀ b, o.loadGlobal isJvmClassName qualifier name ≠ .local b) ∧
      (∀ n, o.loadGlobal isJvmClassName qualifier name ≠ .special n) ∧
      ∀ fn, o.loadGlobal isJvmClassName qualifier name ≠ .core fn := by
  rw [loadGlobal]
  grind

theorem denote_of_ne {b : Binder} (hb : b ≠ ⟨0, .self⟩) : o.denote (.local b) = .local b := by
  obtain ⟨depth, place⟩ := b
  cases depth with
  | zero =>
    cases place with
    | self => exact absurd rfl hb
    | param i | name => rfl
  | succ => rfl

variable (isJvmClassName o)

/-- The var that the symbol is found under: its whole text in the namespace of the code, its name in the
namespace of its qualifier, or the constructor that it stands for. -/
def foundVar : Option VarRef :=
  (o.globals.lookupInNs o.ns o.symbol).or
    (match (symbolParts o.symbol).namespace? with
    | some qualifier => o.globals.lookupInNs (o.qualifiedNs qualifier) (symbolParts o.symbol).name
    | none => o.constructor?)

/-- The symbol names the var: it has no commit, no binder around it has its name, and if the function that
is lowered has it, this is what the var holds. -/
@[grind cases]
structure NamesVar (v : VarRef) : Prop where
  unversioned : (symbolParts o.symbol).version = none
  free : ¬ o.scope.Binds o.symbol
  own : o.scope.topName = some o.symbol → o.current = true
  found : o.foundVar = some v

/-- A value of both tiers. -/
def RespectedValue : Prop :=
  if (symbolParts o.symbol).version.isSome then ¬ o.scope.Binds o.symbol
  else o.scope.Respects o.current o.symbol

/-- The call of a core function, if lowering knows it by the name of the symbol. -/
def callsCore (argc : Nat) : Bool :=
  match callShape (stripNsPrefix o.symbol) with
  | some (.atLeast _) => true
  | some (.among arities) => decide (argc ∈ arities)
  | none => false

/-- The positions at which lowered code respects scopes and namespaces. A head that names a macro is
expanded, a head in the table of core functions is taken for one of them; both are right if nothing else is
meant. -/
def Respected : Position → Prop
  | .value => o.RespectedValue
  | .head argc =>
    match o.resolveMacro with
    | some v => namedIn specialForms (bareName o.symbol) = false ∧ isMethod o.symbol = false ∧ o.NamesVar v
    | none =>
      if namedIn loweredForms (bareName o.symbol) then True
      else if namedIn specialForms (bareName o.symbol) then False
      else if isMethod (bareName o.symbol) then isMethod o.symbol = true
      else if o.callsCore argc then
        ∃ name, o.NamesVar ⟨coreNs, name⟩ ∧ coreFn name = knownFn (stripNsPrefix o.symbol)
      else o.RespectedValue

variable {isJvmClassName o}

theorem lowerSymbol_iff (hplain : ¬ o.scope.Binds o.symbol → o.Plain isJvmClassName) :
    o.lowerSymbol isJvmClassName = o.evalSymbol isJvmClassName ↔ o.RespectedValue := by
  rw [RespectedValue, lowerSymbol]
  cases hversion : (symbolParts o.symbol).version with
  | some =>
    have hiff := (Scope.found true o.mentioned).lowered_eq_none_iff
    cases hlocal : lookupLocal o.scope.lowered o.symbol with
    | none =>
      have hfree := hiff.mp hlocal
      exact iff_of_true ((hplain hfree).loadGlobal_versioned hversion) hfree
    | some d =>
      refine iff_of_false ?_ fun hfree => some_ne_none d (hlocal.symm.trans (hiff.mpr hfree))
      rw [evalSymbol, hversion]
      obtain ⟨b, rfl⟩ | ⟨inner, rfl⟩ := (Scope.found true o.mentioned).locals.2 _ hlocal <;> rintro ⟨⟩
  | none =>
    rw [isSome_none, if_neg Bool.false_ne_true, evalSymbol, hversion]
    cases Scope.found o.current o.mentioned with
    | shared hrespects hbinds h =>
      obtain ⟨b, hb, hframes, hlowered⟩ := h
      rw [hframes, hlowered]
      exact iff_of_true (denote_of_ne hb).symm hrespects
    | free hrespects hfree htop h =>
      rw [h.1, h.2]
      exact iff_of_true ((hplain hfree).loadGlobal_eq hversion) hrespects
    | self hrespects hfree htop h =>
      rw [h.1, h.2, hrespects]
      dsimp only
      cases hcurrent : o.current with
      | true =>
        refine iff_of_true ?_ rfl
        rw [(hplain hfree).loadGlobal_eq hversion, evalGlobal, o.interned hcurrent htop]
        exact (if_pos hcurrent).symm
      | false =>
        have hself : o.denote (.local ⟨0, .self⟩) = .local ⟨0, .self⟩ := by
          rw [denote, hcurrent]
          rfl
        exact iff_of_false (fun heq => loadGlobal_ne.1 _ (heq.trans hself)) Bool.false_ne_true
    | apart hrespects hbinds b d hb h hd hlocal =>
      rw [h.1, h.2]
      exact iff_of_false (fun heq => hd (heq.trans (denote_of_ne hb))) hrespects

theorem evalGlobal_eq_global_iff {v : VarRef} :
    o.evalGlobal isJvmClassName = .global v ↔ o.foundVar = some v := by
  rw [evalGlobal, foundVar]
  grind

/-- **Vars.** The tree-walker resolves the symbol to a var exactly if the symbol names it. -/
theorem evalSymbol_eq_global_iff {v : VarRef} :
    o.evalSymbol isJvmClassName = .global v ↔ o.NamesVar v := by
  rw [evalSymbol]
  cases hversion : (symbolParts o.symbol).version with
  | some commit =>
    refine iff_of_false (by rintro ⟨⟩) fun h => ?_
    exact some_ne_none commit (hversion.symm.trans h.unversioned)
  | none =>
    dsimp only
    cases Scope.found o.current o.mentioned with
    | shared _ hbinds h =>
      obtain ⟨b, hb, hframes, -⟩ := h
      rw [hframes]
      dsimp only
      rw [denote_of_ne hb]
      exact iff_of_false (by rintro ⟨⟩) fun h => h.free hbinds
    | free _ hfree htop h =>
      rw [h.1]
      dsimp only
      rw [evalGlobal_eq_global_iff]
      exact ⟨fun hvar => ⟨hversion, hfree, fun h => absurd h htop, hvar⟩, fun h => h.found⟩
    | self _ hfree htop h =>
      rw [h.1]
      show (if o.current then .global ⟨o.ns, o.symbol⟩ else .local ⟨0, .self⟩) = Denotation.global v ↔ _
      cases hcurrent : o.current with
      | true =>
        have hvar : o.foundVar = some ⟨o.ns, o.symbol⟩ := by
          rw [foundVar, o.interned hcurrent htop]
          rfl
        rw [if_pos rfl, Denotation.global.injEq]
        refine ⟨fun hv => ⟨hversion, hfree, fun _ => hcurrent, hv ▸ hvar⟩, fun h => ?_⟩
        exact Option.some.inj (hvar.symm.trans h.found)
      | false =>
        exact iff_of_false (by rintro ⟨⟩) fun h => Bool.false_ne_true (hcurrent.symm.trans (h.own htop))
    | apart _ hbinds b d hb h =>
      rw [h.1]
      dsimp only
      rw [denote_of_ne hb]
      exact iff_of_false (by rintro ⟨⟩) fun h => h.free hbinds

theorem evalSymbol_ne : (∀ name, o.evalSymbol isJvmClassName ≠ .method name) ∧
    ∀ fn, o.evalSymbol isJvmClassName ≠ .core fn := by
  rw [evalSymbol]
  split
  · exact ⟨by rintro _ ⟨⟩, by rintro _ ⟨⟩⟩
  · split
    · rename_i d hlocal
      obtain ⟨b, rfl⟩ := (Scope.found true o.mentioned).locals.1 _ hlocal
      by_cases hb : b = ⟨0, .self⟩
      · subst hb
        rw [denote]
        split <;> exact ⟨by rintro _ ⟨⟩, by rintro _ ⟨⟩⟩
      · rw [denote_of_ne hb]
        exact ⟨by rintro _ ⟨⟩, by rintro _ ⟨⟩⟩
    · rw [evalGlobal]
      grind

theorem lowerSymbol_ne : (∀ name, o.lowerSymbol isJvmClassName ≠ .special name) ∧
    ∀ fn, o.lowerSymbol isJvmClassName ≠ .core fn := by
  rw [lowerSymbol]
  split
  · rename_i d hlocal
    obtain ⟨b, rfl⟩ | ⟨inner, rfl⟩ := (Scope.found true o.mentioned).locals.2 _ hlocal
    all_goals exact ⟨by rintro _ ⟨⟩, by rintro _ ⟨⟩⟩
  · exact loadGlobal_ne.2

theorem bareName_of_isMethod {s : Text} (h : isMethod s = true) : bareName s = s := by
  rw [bareName, if_neg]
  intro hcore
  obtain ⟨rest, rfl⟩ := isPrefixOf_iff_prefix.mp hcore
  cases h

theorem namedIn_specialForms (h : namedIn loweredForms name = true) :
    namedIn specialForms name = true := by
  rw [specialForms, namedIn, any_cons, any_cons, ← namedIn, h, Bool.or_true, Bool.or_true]

variable (hform : namedIn loweredForms (bareName o.symbol) = false)

include hform

theorem lowerCall_eq (h : o.lowerCall isJvmClassName argc = some d) :
    d = if isMethod (bareName o.symbol) then .method (bareName o.symbol)
      else if o.callsCore argc then .core (knownFn (stripNsPrefix o.symbol))
      else o.lowerSymbol isJvmClassName := by
  rw [lowerCall, hform, if_neg Bool.false_ne_true] at h
  rw [callsCore]
  grind

theorem lowerCall_means_special (h : o.lowerCall isJvmClassName argc = some d) :
    d.means (.special name) = false := by
  rw [lowerCall_eq hform h]
  split
  · rfl
  split
  · rfl
  · rw [← Bool.not_eq_true, means_iff_eq lowerSymbol_ne.2]
    exact lowerSymbol_ne.1 name

/-- A head that is neither expanded nor a special form. -/
theorem lowerCall_iff (hplain : ¬ o.scope.Binds o.symbol → o.Plain isJvmClassName)
    (h : o.lowerCall isJvmClassName argc = some d) :
    d.means (if isMethod o.symbol then .method o.symbol else o.evalSymbol isJvmClassName) = true ↔
      if isMethod (bareName o.symbol) then isMethod o.symbol = true
      else if o.callsCore argc then
        ∃ name, o.NamesVar ⟨coreNs, name⟩ ∧ coreFn name = knownFn (stripNsPrefix o.symbol)
      else o.RespectedValue := by
  rw [lowerCall_eq hform h]
  cases hmethod : isMethod (bareName o.symbol) with
  | true =>
    rw [if_pos rfl, if_pos rfl, means_iff_eq (by rintro _ ⟨⟩)]
    cases hsymbol : isMethod o.symbol with
    | true =>
      rw [if_pos rfl, bareName_of_isMethod hsymbol]
      exact iff_of_true rfl rfl
    | false => exact iff_of_false (evalSymbol_ne.1 _).symm Bool.false_ne_true
  | false =>
    have hsymbol : ¬ isMethod o.symbol = true := by
      intro hsymbol
      rw [bareName_of_isMethod hsymbol, hsymbol] at hmethod
      cases hmethod
    rw [if_neg hsymbol, if_neg Bool.false_ne_true, if_neg Bool.false_ne_true]
    cases o.callsCore argc with
    | true =>
      rw [if_pos rfl, if_pos rfl, means_core_iff evalSymbol_ne.2]
      exact exists_congr fun name => and_congr_left' evalSymbol_eq_global_iff
    | false =>
      rw [if_neg Bool.false_ne_true, means_iff_eq lowerSymbol_ne.2]
      exact lowerSymbol_iff hplain

omit hform in
/-- A head that is expanded as the macro of a var. -/
theorem expanded_iff (v : VarRef) :
    Denotation.means (.global v) (o.resolved isJvmClassName (.head argc)) = true ↔
      namedIn specialForms (bareName o.symbol) = false ∧ isMethod o.symbol = false ∧ o.NamesVar v := by
  rw [resolved, means_iff_eq (by rintro _ ⟨⟩)]
  cases namedIn specialForms (bareName o.symbol) with
  | true => exact iff_of_false (by rintro ⟨⟩) fun h => Bool.false_ne_true h.1.symm
  | false =>
    cases isMethod o.symbol with
    | true => exact iff_of_false (by rintro ⟨⟩) fun h => Bool.false_ne_true h.2.1.symm
    | false =>
      rw [if_neg Bool.false_ne_true, if_neg Bool.false_ne_true, eq_comm, evalSymbol_eq_global_iff]
      exact ⟨fun hnames => ⟨rfl, rfl, hnames⟩, fun h => h.2.2⟩

end Occurrence

open Occurrence

/-- A namespace `user` that names `clojure.string` by `str`, over a core of a few functions and a macro. -/
def userGlobals : GlobalEnv where
  namespaces :=
    [("user".toList, ⟨[("str".toList, "clojure.string".toList)], [],
        ["inc", "reverse", "mod", "when"].map fun name => (name.toList, ⟨coreNs, name.toList⟩)⟩),
      ("clojure.string".toList, ⟨[], ["reverse".toList, "join".toList], []⟩),
      (coreNs, ⟨[], ["inc", "reverse", "mod", "when"].map String.toList, []⟩)]
  unbound := []
  macros := [⟨coreNs, "when".toList⟩]

/-- A symbol in a function of `user` without a name. -/
def inUser (scope : Scope) (symbol : Text) (mentioned : scope.Mentions symbol) : Occurrence where
  globals := userGlobals
  ns := "user".toList
  scope := scope
  symbol := symbol
  current := false
  mentioned := mentioned
  interned := fun h => nomatch h

/-- Code denotes the first by a symbol of `user`, the tree-walker resolves it to the second, and these are
not the same. -/
def diverges (scope : Scope) (symbol : String) (mentioned : scope.Mentions symbol.toList)
    (position : Position) (d resolved : Denotation) : Bool :=
  (inUser scope symbol.toList mentioned).lowered (fun _ => false) position == some d &&
    (inUser scope symbol.toList mentioned).resolved (fun _ => false) position == resolved &&
    !d.means resolved

end Clojurust.Ir
