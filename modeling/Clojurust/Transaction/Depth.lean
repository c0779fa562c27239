import Clojurust.Lib.StateExcept
import Clojurust.Transaction.Outcome

/-!
# The cap on the call depth

`hook_call` and `DepthGuard` of `crates/cljrs-tx/src/lib.rs` count the applications of interpreted
functions; `crates/cljrs-interp/src/apply.rs`, `macros.rs` and `special.rs` and
`crates/cljrs-env/src/callback.rs` apply them.

* `Code` — what a program does, as far as the counter can tell;
* `eval` — its evaluation, with the applications that are active;
* `Capped` — the cap holds, and the transaction says so exactly when it was hit;
* `call_depth_capped_iff` — the constructs without which every program is capped.
-/

namespace Clojurust.Transaction

open StateExcept

variable {V : Type}

/-- Error values and how they print. -/
structure ErrorValues (V : Type) where
  display : V → String
  /-- an `ExceptionInfo` -/
  error : (message : String) → V
  shows : ∀ message, depthMsg.toList <:+: (display (error message)).toList ↔
    depthMsg.toList <:+: message.toList

/-- What a program does. -/
inductive Code (V : Type) where
  | value
  | raise (stop : Stop V)
  | seq (first next : Code V)
  /-- a call form -/
  | call (body : Code V)
  /-- a builtin that applies a function -/
  | invoke (body : Code V)
  | macroApply (body : Code V)
  /-- a lazy sequence or a delay, for a consumer that asks for its error or does not -/
  | force (body : Code V) (asks : Bool)
  /-- a host function that runs a further transaction -/
  | host (answer : TxError → Option String)
  | tryCatch (body : Code V) (catches : Bool) (handler final : Code V)

/-- The counter of the thread, with the most applications that were active and whether one was
refused. -/
structure CallDepth where
  counter : Option (Nat × Nat)
  peak : Nat
  hit : Bool

abbrev Run (V : Type) := EStateM (Stop V) CallDepth

/-- `call_cljrs_fn`, with `active` applications below. -/
def callCljrsFn (body : Nat → Run V Unit) (active : Nat) : Run V Unit := do
  modify fun t => { t with peak := max t.peak (active + 1) }
  body (active + 1)

def leave : Run V Unit :=
  modify fun t => { t with counter := t.counter.map fun (limit, current) => (limit, current - 1) }

def hookCall (body : Nat → Run V Unit) (active : Nat) : Run V Unit := do
  match (← get).counter with
  | none => callCljrsFn body active
  | some (limit, depth) =>
    if limit ≤ depth then
      modify fun t => { t with hit := true }
      throw (.error (.runtime depthMsg))
    modify fun t => { t with counter := some (limit, depth + 1) }
    try callCljrsFn body active
    catch
      | .error e => leave; throw (.error e)
      | .unwound payload => throw (.unwound payload)
    leave

namespace ErrorValues

variable (ev : ErrorValues V)

/-- An error that passes through `invoke`. -/
def invokeError : Stop V → Stop V
  | .error (.thrown value) => .error (.thrown value)
  | .error .gasExhausted => .error .gasExhausted
  | .error other => .error (.thrown (ev.error (other.text ev.display)))
  | .unwound payload => .unwound payload

/-- What a catch clause gets. -/
def caught : Stop V → Option V
  | .error (.thrown value) => some value
  | .error .gasExhausted | .error (.recur _) | .error (.exit _) | .error .interrupted
  | .unwound _ => none
  | .error other => some (ev.error (other.text ev.display))

end ErrorValues

def eval (ev : ErrorValues V) : Code V → Nat → Run V Unit
  | .value, _ => pure ()
  | .raise stop, _ => throw stop
  | .seq first next, active => do
    eval ev first active
    eval ev next active
  | .call body, active => hookCall (eval ev body) active
  | .invoke body, active =>
    try hookCall (eval ev body) active
    catch stop => throw (ev.invokeError stop)
  | .macroApply body, active => callCljrsFn (eval ev body) active
  | .force body asks, active =>
    try callCljrsFn (eval ev body) active
    catch
      | .error e => if asks then throw (.error (.thrown (ev.error (e.text ev.display))))
      | .unwound payload => throw (.unwound payload)
  | .host answer, _ =>
    -- the arena refuses a second invocation of the thread, and the inner transaction panics
    match answer .panic with
    | none => pure ()
    | some message => throw (.error (.thrown (ev.error message)))
  | .tryCatch body catches handler final, active => do
    let handled := tryCatch (eval ev body active) fun stop =>
      match ev.caught stop with
      | none => throw stop
      | some value => if catches then eval ev handler active else throw (.error (.thrown value))
    try handled
    catch
      | .error e => eval ev final active; throw (.error e)
      | .unwound payload => throw (.unwound payload)
    eval ev final active

/-- The marker is in the text. -/
def Marked (ev : ErrorValues V) : Stop V → Prop
  | .error e => depthMsg.toList <:+: (e.text ev.display).toList
  | .unwound _ => False

/-- The transaction fails with `DepthExceeded`. -/
def Reported (ev : ErrorValues V) (stop : Stop V) : Prop :=
  finish ev.display (.error stop) = .error .depthExceeded

/-- No more applications than the limit are ever active, and the transaction fails with
`DepthExceeded` exactly if one was refused. -/
def Capped (ev : ErrorValues V) (limit : Nat) (code : Code V) : Prop :=
  wp (eval ev code 0) (fun _ t => t.peak ≤ limit ∧ t.hit = false)
    (fun stop t => t.peak ≤ limit ∧ (t.hit = true ↔ Reported ev stop)) ⟨some (limit, 0), 0, false⟩

inductive Construct where
  | expansion
  | thunk
  | handler
  | marker

def Code.Uses (ev : ErrorValues V) : Code V → Construct → Prop
  | .value, _ => False
  | .raise stop, c => c = .marker ∧ Marked ev stop
  | .seq first next, c => first.Uses ev c ∨ next.Uses ev c
  | .call body, c | .invoke body, c => body.Uses ev c
  | .macroApply body, c => c = .expansion ∨ body.Uses ev c
  | .force body _, c => c = .thunk ∨ body.Uses ev c
  | .host answer, c =>
    c = .marker ∧ ∃ message ∈ answer .panic, depthMsg.toList <:+: message.toList
  | .tryCatch body _ handler final, c =>
    c = .handler ∨ body.Uses ev c ∨ handler.Uses ev c ∨ final.Uses ev c

section Proof

variable {ev : ErrorValues V} {limit depth : Nat} {t : CallDepth} {body : Nat → Run V Unit}
  {stop : Stop V}

/-- Before and after a part of a capped program. -/
structure Within (limit depth : Nat) (t : CallDepth) : Prop where
  counter : t.counter = some (limit, depth)
  depth_le : depth ≤ limit
  peak_le : t.peak ≤ limit
  not_hit : t.hit = false

/-- An error of a capped program. -/
def Ends (ev : ErrorValues V) (limit : Nat) (stop : Stop V) (t : CallDepth) : Prop :=
  t.peak ≤ limit ∧ (t.hit = true ∧ Reported ev stop ∨ t.hit = false ∧ ¬ Marked ev stop)

theorem reported_iff : Reported ev stop ↔ Marked ev stop ∧ ∀ op, stop ≠ .error (.forbiddenEffect op) := by
  cases stop with
  | error e =>
    have hgas : ¬ depthMsg.toList <:+: "gas exhausted".toList := by decide
    simp only [Reported, finish, Except.error.injEq]
    unfold mapEvalError
    split
    · exact iff_of_false nofun fun h => hgas h.1
    · exact iff_of_false nofun fun h => h.2 _ rfl
    · rename_i hother
      split
      · rename_i hmarked
        exact iff_of_true rfl ⟨hmarked, fun op h => hother op (Stop.error.inj h)⟩
      · rename_i hmarked
        exact iff_of_false nofun fun h => hmarked h.1
  | unwound payload => cases payload <;> simp [Reported, finish, Marked]

theorem marked_invokeError : Marked ev (ev.invokeError stop) ↔ Marked ev stop := by
  unfold ErrorValues.invokeError
  split
  · rfl
  · rfl
  · exact ev.shows _
  · rfl

theorem Ends.invokeError (h : Ends ev limit stop t) : Ends ev limit (ev.invokeError stop) t := by
  obtain ⟨hpeak, ⟨hhit, hreported⟩ | ⟨hhit, hmarked⟩⟩ := h
  · refine ⟨hpeak, .inl ⟨hhit, reported_iff.mpr ⟨?_, ?_⟩⟩⟩
    · exact marked_invokeError.mpr (reported_iff.mp hreported).1
    · cases stop with
      | error e => cases e <;> simp [ErrorValues.invokeError]
      | unwound => simp [ErrorValues.invokeError]
  · exact ⟨hpeak, .inr ⟨hhit, mt marked_invokeError.mp hmarked⟩⟩

theorem wp_hookCall (ht : Within limit depth t)
    (hbody : ∀ t, Within limit (depth + 1) t →
      wp (body (depth + 1)) (fun _ => Within limit (depth + 1)) (Ends ev limit) t) :
    wp (hookCall body depth) (fun _ => Within limit depth) (Ends ev limit) t := by
  obtain ⟨counter, peak, hit⟩ := t
  obtain ⟨rfl, hdepth, hpeak, rfl⟩ := ht
  unfold hookCall
  refine wp_bind.mpr (wp_get.mpr ?_)
  dsimp only
  split
  · refine ⟨hpeak, .inl ⟨rfl, reported_iff.mpr ⟨?_, nofun⟩⟩⟩
    show depthMsg.toList <:+: ("runtime error: " ++ depthMsg).toList
    rw [String.toList_append]
    exact (List.suffix_append _ _).isInfix
  · rename_i hlimit
    have hentered : Within limit (depth + 1) ⟨some (limit, depth + 1), max peak (depth + 1), false⟩ :=
      ⟨rfl, by omega, Nat.max_le.mpr ⟨hpeak, by omega⟩, rfl⟩
    show wp (tryCatch (callCljrsFn body depth) _ >>= _) _ _ ⟨some (limit, depth + 1), peak, false⟩
    refine wp_seq (wp_tryCatch.mpr (wp_weaken (hbody _ hentered) (fun _ _ ht => ht) ?_)) ?_
    · intro stop t hends
      cases stop with
      | error => exact hends
      | unwound => exact hends
    · rintro _ t ⟨hcounter, -, hpeak, hhit⟩
      exact ⟨by simp [hcounter], hdepth, hpeak, hhit⟩

theorem wp_eval : ∀ (code : Code V), (∀ c, ¬ code.Uses ev c) → ∀ {depth t}, Within limit depth t →
    wp (eval ev code depth) (fun _ => Within limit depth) (Ends ev limit) t
  | .value, _, _, _, ht => ht
  | .raise stop, h, _, _, ht => ⟨ht.peak_le, .inr ⟨ht.not_hit, fun hmarked => h _ ⟨rfl, hmarked⟩⟩⟩
  | .seq first next, h, _, _, ht => by
    refine wp_seq (wp_eval first (fun c hc => h c (.inl hc)) ht) ?_
    exact fun _ _ ht' => wp_eval next (fun c hc => h c (.inr hc)) ht'
  | .call body, h, _, _, ht => wp_hookCall ht fun _ => wp_eval body h
  | .invoke body, h, _, _, ht =>
    wp_tryCatch.mpr (wp_weaken (wp_hookCall ht fun _ => wp_eval body h) (fun _ _ h => h)
      fun _ _ h => h.invokeError)
  | .macroApply _, h, _, _, _ => absurd (.inl rfl) (h .expansion)
  | .force _ _, h, _, _, _ => absurd (.inl rfl) (h .thunk)
  | .host answer, h, _, _, ht => by
    simp only [eval]
    split
    · exact ht
    · rename_i message hmessage
      refine ⟨ht.peak_le, .inr ⟨ht.not_hit, fun hmarked => h .marker ⟨rfl, message, hmessage, ?_⟩⟩⟩
      exact (ev.shows _).mp hmarked
  | .tryCatch _ _ _ _, h, _, _, _ => absurd (.inl rfl) (h .handler)

/-- **The cap on the call depth is enforced exactly without macros, thunks, handlers and errors that
carry the marker.** -/
theorem call_depth_capped_iff (ev : ErrorValues V) (allowed : Construct → Prop) :
    (∀ limit code, (∀ c, code.Uses ev c → allowed c) → Capped ev limit code) ↔
      ∀ c, ¬ allowed c := by
  constructor
  · intro h c hc
    cases c with
    | expansion =>
      have hcapped := h 1 (.call (.macroApply .value)) (by rintro c (rfl | ⟨⟨⟩⟩); exact hc)
      exact absurd hcapped.1 (by decide)
    | thunk =>
      have hcapped := h 1 (.call (.force .value true)) (by rintro c (rfl | ⟨⟨⟩⟩); exact hc)
      exact absurd hcapped.1 (by decide)
    | handler =>
      have hcapped := h 1 (.call (.tryCatch (.call .value) true .value .value))
        (by rintro c (rfl | ⟨⟨⟩⟩ | ⟨⟨⟩⟩ | ⟨⟨⟩⟩); exact hc)
      cases hcapped.2
    | marker =>
      have hmarked : Marked ev (.error (.thrown (ev.error depthMsg))) :=
        (ev.shows _).mpr (List.infix_refl _)
      have hcapped := h 1 (.raise (.error (.thrown (ev.error depthMsg)))) (by rintro c ⟨rfl, -⟩; exact hc)
      cases hcapped.2.mpr (reported_iff.mpr ⟨hmarked, nofun⟩)
  · intro h limit code huses
    refine wp_weaken (wp_eval code (fun c hc => h c (huses c hc)) ⟨rfl, Nat.zero_le _, Nat.zero_le _, rfl⟩)
      (fun _ t ht => ⟨ht.peak_le, ht.not_hit⟩) ?_
    rintro stop t ⟨hpeak, ⟨hhit, hreported⟩ | ⟨hhit, hmarked⟩⟩
    · exact ⟨hpeak, iff_of_true hhit hreported⟩
    · refine ⟨hpeak, iff_of_false (by simp [hhit]) fun hreported => ?_⟩
      exact hmarked (reported_iff.mp hreported).1

/-- A call inside a call whose error is caught, and a call that expands a macro, both at limit 1. -/
theorem depth_cap_missed :
    ¬ Capped ⟨id, id, fun _ => Iff.rfl⟩ 1 (.call (.tryCatch (.call .value) true .value .value)) ∧
      ¬ Capped ⟨id, id, fun _ => Iff.rfl⟩ 1 (.call (.macroApply .value)) :=
  ⟨fun h => (nomatch h.2), fun h => absurd h.1 (by decide)⟩

end Proof

end Clojurust.Transaction
