import Clojurust.Ir.Arith
import Clojurust.Ir.Fragment

/-!
# Lowering variadic calls

`emit_binary_fold` and `emit_comparison_chain` of `crates/cljrs-ir/src/lower/anf.rs` turn a call of
an arithmetic or comparison function with any number of operands into calls with two.

* `Inst` — constants and calls of known functions; `knownHost` — the interpreter for them;
* `emitBinaryFold`, `emitComparisonChain` — the lowering;
* `foldAnswer` — what the code computes, from the answers of the known function
  on two operands.
-/

namespace Clojurust.Ir

open StateExcept List

/-! ## Instructions -/

inductive Const where
  | bool (b : Bool)
  | long (n : Int64)

def Const.toValue : Const → Value
  | .bool b => .bool b
  | .long n => .long n

/-- Constants and calls of the known functions `κ`. -/
inductive Inst (κ : Type) where
  | const (dst : VarId) (value : Const)
  | callKnown (dst : VarId) (fn : κ) (args : List VarId)

def isTruthy : Value → Bool
  | .nil | .bool false => false
  | _ => true

/-- An answer as the interpreter sees it: a panic goes through. -/
def ofAnswer : Answer → Outcome Builtins.ValueError Value
  | .ok v => .ok v
  | .error (.error e) => .error e
  | .error (.panic _) => .panic

section Known

variable {κ : Type} (dispatch : κ → List Value → Answer)

def executeKnown (inst : Inst κ) (regs : Registers Value) :
    Outcome Builtins.ValueError (Registers Value × Unit) :=
  match inst with
  | .const dst value => assign regs dst (.ok value.toValue)
  | .callKnown dst fn args =>
    match args.mapM regs.get with
    | none => .panic
    | some vals => assign regs dst (ofAnswer (dispatch fn vals))

/-- The interpreter outside of a gas scope. -/
def knownHost : Host (Inst κ) Value Unit Builtins.ValueError where
  nil := .nil
  isTruthy := isTruthy
  charge _ world := .ok world
  osrEnter _ _ world := (none, world)
  executeInst inst regs _ := executeKnown dispatch inst regs
  backEdge _ world := world
  runtimeError message := .other message

theorem calm_knownHost : Calm (knownHost dispatch) := ⟨fun _ => rfl, fun _ _ => rfl⟩

def emitConst (value : Const) : Emit (Inst κ) VarId := do
  let dst ← Emit.freshVar
  Emit.emit (.const dst value)
  return dst

def emitKnown (fn : κ) (args : List VarId) : Emit (Inst κ) VarId := do
  let dst ← Emit.freshVar
  Emit.emit (.callKnown dst fn args)
  return dst

variable {dispatch}

theorem emits_const (vals : List (VarId × Value)) (value : Const) :
    Emits (knownHost dispatch) vals (emitConst value) (.ok value.toValue) :=
  emits_inst fun _ _ _ => rfl

variable {vals : List (VarId × Value)}

theorem mapM_get {regs : Registers Value} (hregs : Holds regs vals) :
    ∀ {args : List (VarId × Value)}, (∀ e ∈ args, e ∈ vals) →
      (args.map Prod.fst).mapM regs.get = some (args.map Prod.snd)
  | [], _ => rfl
  | e :: args, h => by
    rw [forall_mem_cons] at h
    simp [hregs e h.1, mapM_get hregs h.2]

theorem emits_known (fn : κ) (args : List (VarId × Value)) (h : ∀ e ∈ args, e ∈ vals) :
    Emits (knownHost dispatch) vals (emitKnown fn (args.map Prod.fst))
      (ofAnswer (dispatch fn (args.map Prod.snd))) := by
  refine emits_inst fun dst regs hregs => ?_
  show executeKnown dispatch (.callKnown dst fn (args.map Prod.fst)) regs = _
  simp only [executeKnown, mapM_get hregs h]

theorem emits_known_two (fn : κ) {a b : VarId} {x y : Value}
    (ha : (a, x) ∈ vals) (hb : (b, y) ∈ vals) :
    Emits (knownHost dispatch) vals (emitKnown fn [a, b]) (ofAnswer (dispatch fn [x, y])) :=
  emits_known fn [(a, x), (b, y)] (by simp [ha, hb])

theorem wp_emitConst_block (ctx : LowerCtx (Inst κ)) (value : Const) :
    wp (emitConst value) (fun _ ctx' => ctx'.currentBlockId = ctx.currentBlockId) (fun _ _ => True)
      ctx := by
  refine wp_seq_any (wp_freshVar fun dst ctx1 hfresh => hfresh) ?_
  intro dst ctx1 hfresh
  obtain ⟨-, rfl, -⟩ := freshVar_eq_some hfresh
  exact rfl

end Known

/-! ## Folds and chains -/

section Folds

variable {κ : Type}

/-- `(f (f a b) c)`. -/
def emitLeftFold (fn : κ) (first : VarId) (rest : List VarId) : Emit (Inst κ) VarId :=
  rest.foldlM (fun prev next => emitKnown fn [prev, next]) first

/-- The loop over the pairs, with the entries of the phi so far. -/
def emitPairs (fn : κ) (merge : BlockId) :
    List (BlockId × VarId) → List (VarId × VarId) → Emit (Inst κ) VarId
  | _, [] => emitConst (.bool true)
  | predecessors, [(a, b)] => do
    let cmp ← emitKnown fn [a, b]
    let lastExit ← Emit.currentBlockId
    joinAt merge (predecessors ++ [(lastExit, cmp)])
  | predecessors, (a, b) :: pairs => do
    let cmp ← emitKnown fn [a, b]
    let nextBlock ← Emit.freshBlock
    let falseExit ← Emit.currentBlockId
    let falseVal ← emitConst (.bool false)
    Emit.finishBlock (.branch cmp nextBlock merge)
    Emit.startBlock nextBlock
    emitPairs fn merge (predecessors ++ [(falseExit, falseVal)]) pairs

/-- `(< a b c)` is `(and (< a b) (< b c))`. -/
def emitComparisonChain (fn : κ) (args : List VarId) : Emit (Inst κ) VarId := do
  let merge ← Emit.freshBlock
  emitPairs fn merge [] (args.zip args.tail)

/-- What a chain of comparisons computes. -/
def chainAnswer (compare : Value → Value → Answer) : List Value → Answer
  | x :: y :: z :: rest => do
    if isTruthy (← compare x y) then chainAnswer compare (y :: z :: rest) else return .bool false
  | [x, y] => compare x y
  | _ => .ok (.bool true)

theorem ofAnswer_bind (r : Answer) (g : Value → Answer) :
    ofAnswer (r >>= g) = (ofAnswer r).bind fun v => ofAnswer (g v) := by
  cases r with
  | ok v => rfl
  | error e => cases e <;> rfl

theorem ofAnswer_next_inj {r s : Answer} (h : (ofAnswer r).next = (ofAnswer s).next) :
    ofAnswer r = ofAnswer s := by
  generalize ofAnswer r = x at h
  generalize ofAnswer s = y at h
  cases x <;> cases y <;> simp_all [Outcome.next]

variable {dispatch : κ → List Value → Answer}

theorem emits_leftFold (fn : κ) : ∀ (rest : List (VarId × Value)) {vals : List (VarId × Value)}
    {first : VarId} {x : Value}, (first, x) ∈ vals → (∀ e ∈ rest, e ∈ vals) →
    Emits (knownHost dispatch) vals (emitLeftFold fn first (rest.map Prod.fst))
      (ofAnswer ((rest.map Prod.snd).foldlM (fun acc y => dispatch fn [acc, y]) x))
  | [], _, _, _, hfirst, _ => emits_pure hfirst
  | e :: rest, vals, first, x, hfirst, hrest => by
    rw [forall_mem_cons] at hrest
    rw [map_cons, map_cons, foldlM_cons, ofAnswer_bind]
    refine (emits_known_two fn hfirst hrest.1).bind fun dst v _ => ?_
    exact emits_leftFold fn rest (.head _)
      fun e' he' => .tail _ (hrest.2 e' he')

theorem source_append {predecessors : List (BlockId × VarId)} {id : BlockId}
    (h : ∀ e ∈ predecessors, e.1 ≠ id) (dst var : VarId) (entries : List (BlockId × VarId)) :
    (Phi.mk dst (predecessors ++ (id, var) :: entries)).source id = some var := by
  have hnone : predecessors.find? (fun entry => entry.1 == id) = none := by
    rw [find?_eq_none]
    intro e he
    simpa using h e he
  simp [Phi.source, find?_append, hnone]

/-- The pairs from a context on: the code ends where the arms meet. -/
@[grind cases]
structure Chains (dispatch : κ → List Value → Answer) (vals : List (VarId × Value)) (merge : BlockId)
    (predecessors : List (BlockId × VarId)) (answer : Answer) (ctx : LowerCtx (Inst κ)) (dst : VarId)
    (ctx' : LowerCtx (Inst κ)) : Prop where
  joins : ∃ last entries, Grows ctx last ∧ Joins last merge (predecessors ++ entries) dst ctx'
  leaves : ∀ id, ctx.Unstarted id → id ≠ merge → ctx'.Unstarted id
  computes : ∀ regs, Holds regs vals →
    Computes (knownHost dispatch) ctx ctx' dst regs (ofAnswer answer)

variable {vals : List (VarId × Value)}

theorem wp_emitPairs (dispatch : κ → List Value → Answer) (fn : κ) {merge : BlockId} :
    ∀ (rest : List (VarId × Value)) (a b : VarId × Value) {ctx : LowerCtx (Inst κ)}
      {predecessors : List (BlockId × VarId)}, ctx.Sound → Known ctx vals → ctx.Unstarted merge →
      (∀ e ∈ predecessors, e.1 ∈ ctx.finishedBlocks.map Block.id) →
      (∀ e ∈ a :: b :: rest, e ∈ vals) →
      wp (emitPairs fn merge predecessors
          (((a :: b :: rest).map Prod.fst).zip ((b :: rest).map Prod.fst)))
        (Chains dispatch vals merge predecessors (chainAnswer (fun x y => dispatch fn [x, y])
          ((a :: b :: rest).map Prod.snd)) ctx) (fun _ _ => True) ctx
  | [], a, b, ctx, predecessors, hs, hknown, hmerge, hpreds, hargs => by
    have hcmp : Emits (knownHost dispatch) vals (emitKnown fn [a.1, b.1]) _ :=
      emits_known_two fn (hargs a (by simp)) (hargs b (by simp))
    refine wp_seq_any (hcmp ctx hs hknown) ?_
    rintro cmp ctx1 ⟨hgrows, hleaves, -, hcomputes⟩
    have hs1 := hgrows.sound hs
    refine wp_mono_any (wp_joinAt hs1 (hleaves _ hmerge) _) ?_
    intro dst ctx' hjoins
    refine ⟨⟨ctx1, _, hgrows, hjoins⟩, fun id hid hne => hjoins.leaves id (hleaves id hid) hne, ?_⟩
    intro regs hregs
    rw [← Outcome.bind_ok (ofAnswer _)]
    refine (hcomputes regs hregs).seq hgrows hjoins.grows fun v regs1 _ _ hval => ?_
    refine hjoins.arrive (Nat.le_refl _) (fun f hf n => ?_) (source_append ?_ _ _ _) hval
    · exact runFrom_ended (calm_knownHost dispatch) (hjoins.ended f hf) regs1 leave_jump n
    · grind
  | c :: rest, a, b, ctx, predecessors, hs, hknown, hmerge, hpreds, hargs => by
    have hcmp : Emits (knownHost dispatch) vals (emitKnown fn [a.1, b.1]) _ :=
      emits_known_two fn (hargs a (by simp)) (hargs b (by simp))
    refine wp_seq_any (hcmp ctx hs hknown) ?_
    rintro cmp ctx1 ⟨hgrows1, hleaves1, hcmpVar, hcomputes⟩
    have hs1 := hgrows1.sound hs
    refine wp_seq_any (wp_freshBlock hs1) ?_
    intro nextBlock ctx2 hnext
    have hs2 := hnext.grows.sound hs1
    have hknown2 := hknown.grow (hgrows1.trans hnext.grows).nextVar
    have hfalse : Emits (knownHost dispatch) vals (emitConst (.bool false)) _ := emits_const vals _
    show wp (emitConst (.bool false) >>= _) _ _ ctx2
    refine wp_seq_any (wp_and (hfalse ctx2 hs2 hknown2) (wp_emitConst_block ctx2 _)) ?_
    rintro falseVal ctx3 ⟨⟨hgrows3, hleaves3, -, hconst⟩, hblock3⟩
    have hs3 := hgrows3.sound hs2
    -- the next pair, in a block of its own
    let ctx4 := ctx3.switch (.branch cmp nextBlock merge) nextBlock []
    have hgrows4 : Grows ctx3 ctx4 := grows_switch _ _ hs3 (hleaves3 _ hnext.unstarted)
    have hgrows : Grows ctx1 ctx4 := (hnext.grows.trans hgrows3).trans hgrows4
    have hleaves : ∀ id, ctx.Unstarted id → ctx4.Unstarted id := by
      intro id hid
      have hid1 := hleaves1 id hid
      exact unstarted_switch _ _ (hleaves3 _ (hnext.leaves _ hid1)) (hnext.ne _ hid1)
    have hpreds4 : ∀ e ∈ predecessors ++ [(ctx2.currentBlockId, falseVal)],
        e.1 ∈ ctx4.finishedBlocks.map Block.id := by
      intro e he
      rw [mem_append, mem_singleton] at he
      rcases he with he | rfl
      · grind
      · exact (mem_ids_switch _ _).mpr (.inr hblock3.symm)
    have hrest := wp_emitPairs dispatch fn rest b c (hgrows4.sound hs3)
      (hknown2.grow (hgrows3.trans hgrows4).nextVar) (hleaves _ hmerge) hpreds4
      fun e he => hargs e (.tail _ he)
    refine wp_mono_any hrest ?_
    rintro dst ctx' ⟨⟨last, entries, hlast, hjoins⟩, hleaves', hcomputes'⟩
    have hgrows4' : Grows ctx4 ctx' := hlast.trans hjoins.grows
    rw [append_assoc, singleton_append] at hjoins
    refine ⟨⟨last, _, (hgrows1.trans hgrows).trans hlast, hjoins⟩,
      fun id hid hne => hleaves' id (hleaves id hid) hne, ?_⟩
    intro regs hregs
    rw [map_cons, map_cons, map_cons, chainAnswer, ofAnswer_bind]
    refine (hcomputes regs hregs).seq hgrows1 (hgrows.trans hgrows4')
      fun v regs1 _ hretains hval => ?_
    have hregs1 : Holds regs1 vals := hregs.keep hknown hretains
    refine Computes.here ?_ hnext.grows.nextVar hnext.block hnext.insts
    refine (hconst regs1 hregs1).next hgrows3 (hgrows4.trans hgrows4') fun regs2 hretains2 hfalseVal => ?_
    have hcmpVal : regs2.get cmp = some v :=
      (hretains2.get cmp (Nat.lt_of_lt_of_le hcmpVar hnext.grows.nextVar)).trans hval
    have hleave : ∀ f, Houses f ctx' → ∀ n, runFrom (knownHost dispatch) f ctx3 regs2 (n + 1) =
        enter (knownHost dispatch) f ctx3.currentBlockId
          (if isTruthy v then nextBlock else merge) regs2 n := by
      intro f hf n
      have hended := (houses_switch _ _ (hgrows4'.houses f hf)).2
      exact runFrom_ended (calm_knownHost dispatch) hended regs2 (leave_branch hcmpVal) n
    cases htruthy : isTruthy v with
    | true =>
      rw [htruthy] at hleave
      have hregs2 : Holds regs2 vals := hregs1.keep hknown2 hretains2
      refine (hcomputes' regs2 hregs2).from hgrows4.nextVar fun f hf n => ?_
      rw [hleave f hf n, if_pos rfl]
      exact enter_eq_runFrom (hgrows4'.houses f hf) rfl rfl n
    | false =>
      rw [htruthy] at hleave
      have hpredsNe : ∀ e ∈ predecessors, e.1 ≠ ctx2.currentBlockId := by
        intro e he heq
        exact hs2.current (heq ▸ (hgrows1.trans hnext.grows).ids _ (hpreds e he))
      refine hjoins.arrive (hgrows4.trans hlast).nextVar hleave ?_ hfalseVal
      rw [hblock3]
      exact source_append hpredsNe _ _ _

theorem emits_comparisonChain (fn : κ) (a b : VarId × Value) (rest : List (VarId × Value))
    (hargs : ∀ e ∈ a :: b :: rest, e ∈ vals) :
    Emits (knownHost dispatch) vals (emitComparisonChain fn ((a :: b :: rest).map Prod.fst))
      (ofAnswer (chainAnswer (fun x y => dispatch fn [x, y]) ((a :: b :: rest).map Prod.snd))) := by
  intro ctx hs hknown
  refine wp_seq_any (wp_freshBlock hs) ?_
  intro merge ctx1 hmerge
  have hknown1 := hknown.grow hmerge.grows.nextVar
  refine wp_mono_any (wp_emitPairs dispatch fn rest a b (hmerge.grows.sound hs) hknown1 hmerge.unstarted
    (by simp) hargs) ?_
  rintro dst ctx' ⟨⟨last, entries, hlast, hjoins⟩, hleaves, hcomputes⟩
  refine ⟨hmerge.grows.trans (hlast.trans hjoins.grows), ?_, hjoins.below, ?_⟩
  · intro id hid
    exact hleaves id (hmerge.leaves id hid) (hmerge.ne id hid)
  · intro regs hregs
    exact (hcomputes regs hregs).here hmerge.grows.nextVar hmerge.block hmerge.insts

end Folds

/-! ## Arithmetic and comparison -/

def isComparison : KnownFn → Bool
  | .eq | .lt | .gt | .lte | .gte => true
  | _ => false

/-- The name in the error for a call without operands. -/
def KnownFn.debugName : KnownFn → String
  | .add => "Add"
  | .sub => "Sub"
  | .mul => "Mul"
  | .div => "Div"
  | .rem => "Rem"
  | .eq => "Eq"
  | .lt => "Lt"
  | .gt => "Gt"
  | .lte => "Lte"
  | .gte => "Gte"

def emitBinaryFold (fn : KnownFn) (args : List VarId) : Emit (Inst KnownFn) VarId :=
  match args with
  | [] =>
    match fn with
    | .add => emitConst (.long 0)
    | .mul => emitConst (.long 1)
    | _ => Emit.malformed ("wrong number of args (0) for " ++ fn.debugName)
  | [x] =>
    match fn with
    | .add | .mul => return x
    | .sub => do
      let zero ← emitConst (.long 0)
      emitKnown .sub [zero, x]
    | .div => do
      let one ← emitConst (.long 1)
      emitKnown .div [one, x]
    | .rem => emitKnown .rem [x]
    | _ => emitConst (.bool true)
  | [x, y] => emitKnown fn [x, y]
  | x :: rest => if isComparison fn then emitComparisonChain fn args else emitLeftFold fn x rest

section Arithmetic

variable (num : Builtins.Tower)

/-- What the code of `emit_binary_fold` computes; there is none if lowering fails. -/
def foldAnswer (fn : KnownFn) (args : List Value) : Answer :=
  match args with
  | [] =>
    match fn with
    | .add => .ok (.long 0)
    | .mul => .ok (.long 1)
    | _ => Builtins.other ("wrong number of args (0) for " ++ fn.debugName)
  | [x] =>
    match fn with
    | .add | .mul => .ok x
    | .sub => dispatchKnownFn num .sub [.long 0, x]
    | .div => dispatchKnownFn num .div [.long 1, x]
    | .rem => dispatchKnownFn num .rem [x]
    | _ => .ok (.bool true)
  | x :: rest =>
    if isComparison fn then chainAnswer (fun x y => dispatchKnownFn num fn [x, y]) args
    else rest.foldlM (fun acc y => dispatchKnownFn num fn [acc, y]) x

theorem foldAnswer_two (fn : KnownFn) (x y : Value) :
    foldAnswer num fn [x, y] = dispatchKnownFn num fn [x, y] := by
  have hfold : [y].foldlM (fun acc y => dispatchKnownFn num fn [acc, y]) x =
      dispatchKnownFn num fn [x, y] := by
    rw [foldlM_cons]
    exact bind_pure _
  cases hfn : isComparison fn with
  | true => simp only [foldAnswer, hfn, if_true, chainAnswer]
  | false =>
    simp only [foldAnswer, hfn]
    exact hfold

theorem emits_binaryFold (fn : KnownFn) (args : List (VarId × Value)) {vals : List (VarId × Value)}
    (hargs : ∀ e ∈ args, e ∈ vals) :
    Emits (knownHost (dispatchKnownFn num)) vals (emitBinaryFold fn (args.map Prod.fst))
      (ofAnswer (foldAnswer num fn (args.map Prod.snd))) := by
  match args with
  | [] =>
    cases fn with
    | add | mul => exact emits_const vals _
    | _ => exact emits_throw _ _
  | [x] =>
    have hx := hargs x (.head _)
    cases fn with
    | add | mul => exact emits_pure hx
    | sub =>
      refine (emits_const vals (.long 0)).next fun zero => ?_
      exact emits_known_two _ (.head _) (.tail _ hx)
    | div =>
      refine (emits_const vals (.long 1)).next fun one => ?_
      exact emits_known_two _ (.head _) (.tail _ hx)
    | rem => exact emits_known KnownFn.rem [x] hargs
    | _ => exact emits_const vals _
  | [x, y] =>
    simp only [map_cons, map_nil, foldAnswer_two]
    exact emits_known_two fn (hargs x (by simp)) (hargs y (by simp))
  | x :: y :: z :: rest =>
    cases hfn : isComparison fn with
    | true =>
      simp only [map_cons, emitBinaryFold, foldAnswer, hfn, if_true]
      exact emits_comparisonChain fn x y (z :: rest) hargs
    | false =>
      simp only [map_cons, emitBinaryFold, foldAnswer, hfn, Bool.false_eq_true, if_false]
      exact emits_leftFold fn (y :: z :: rest) (hargs x (by simp))
        fun e he => hargs e (.tail _ he)

/-- The function `(fn [a b c] (+ a b c))` of so many parameters. The operands are passed in: a literal
`2N` or `1/2` in the call would be lowered to a long or a double of its own. -/
def lowerArith (fn : KnownFn) (arity : Nat) : Except LowerError (IrFunction (Inst KnownFn)) :=
  lowerFnBody arity (emitBinaryFold fn)

end Arithmetic

end Clojurust.Ir
