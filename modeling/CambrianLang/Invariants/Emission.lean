/-
  **What is emitted for an invariant of one entity** (`codegen/lean/evm/invariant.rs`).

  The emitted text is Lean, so the functions it defines are modelled as they are emitted,
  in both profiles.  The functions of the routes and the conditions in the actions come
  from other parts of the back end and are taken as they are.
-/
import CambrianLang.Lib.GuardedTraces
import CambrianLang.Prelude.Math

namespace CambrianLang.Invariants

open Prelude

abbrev Address := BitVec 160

/-- `MsgCtx`. -/
structure MsgCtx where
  sender : Address
  value : BitVec 256
  timestamp : BitVec 64
  chainId : BitVec 256
deriving DecidableEq

/-! ### Trace accumulators -/

/-- `AccShape`: the accessors that some `assume` or `check` uses. -/
structure AccShape where
  usesLength : Bool
  counted : List String
  usesLast : Bool

/-- `LastAction`. -/
inductive LastAction where
  | none
  | route (name : String)
  | advanceTime
deriving DecidableEq

/-- `TraceAcc`.  A field that is not emitted is never updated. -/
structure TraceAcc where
  len : Nat
  count : String → Nat
  last : LastAction

def accInit : TraceAcc where
  len := 0
  count _ := 0
  last := .none

/-- `acc_update_delta`. -/
def accUpdateDelta (shape : AccShape) (route : String) (acc : TraceAcc) : TraceAcc where
  len := if shape.usesLength then acc.len + 1 else acc.len
  count r := if shape.counted.contains route && r == route then acc.count r + 1 else acc.count r
  last := if shape.usesLast then .route route else acc.last

def accUpdateTime (shape : AccShape) (acc : TraceAcc) : TraceAcc where
  len := if shape.usesLength then acc.len + 1 else acc.len
  count := acc.count
  last := if shape.usesLast then .advanceTime else acc.last

/-! ### Actions -/

/-- The function generated for a route: with or without a failure mode, with or without a
    return value. -/
inductive RouteFn (World Identity Args Val : Type) where
  | total (call : World → Identity → MsgCtx → Args → World)
  | totalView (call : World → Identity → MsgCtx → Args → World × Val)
  | fails (call : World → Identity → MsgCtx → Args → RouteResult World)
  | failsView (call : World → Identity → MsgCtx → Args → RouteResult (World × Val))

variable {World Identity Args Val : Type}

/-- `route_fail_mode`. -/
def RouteFn.routeFail : RouteFn World Identity Args Val → Bool
  | .total _ | .totalView _ => false
  | .fails _ | .failsView _ => true

/-- `ResolvedAction`: the route and the steps of the action's body. -/
structure ResolvedAction (World Identity Args Val : Type) where
  route : String
  isInit : Bool
  call : RouteFn World Identity Args Val
  skipIfs : List (World → Identity → MsgCtx → Bool)
  /-- the bounds that depend on the state -/
  stateBounds : List (World → Identity → MsgCtx → Args → Bool)
  assumes : List (World → Identity → MsgCtx → TraceAcc → Args → Bool)

/-- An invariant, its routes looked up and its senders filtered. -/
structure Invariant (World Identity Args Val : Type) where
  actions : List (ResolvedAction World Identity Args Val)
  senders : List Address
  withTime : Bool
  failOnRevert : Bool
  shape : AccShape

namespace Invariant

variable (inv : Invariant World Identity Args Val)

def anyThrowing : Bool := inv.actions.any fun a => a.call.routeFail

/-- `Action`.  Without senders the index is not there, and nothing reads it. -/
inductive Action where
  | call (i : Fin inv.actions.length) (args : Args) (senderIdx : Nat)
  | advanceTime (timed : inv.withTime = true) (delta : BitVec 64)

/-- `let ctx := { ctx with sender := … }`. -/
def asSender (ctx : MsgCtx) (senderIdx : Nat) : MsgCtx :=
  if inv.senders.isEmpty then ctx
  else { ctx with sender := inv.senders.getD (senderIdx % inv.senders.length) 0 }

/-- `accUpdate`. -/
def accUpdate (acc : TraceAcc) : inv.Action → TraceAcc
  | .call i _ _ => accUpdateDelta inv.shape (inv.actions.get i).route acc
  | .advanceTime _ _ => accUpdateTime inv.shape acc

/-- `stepValid`. -/
def stepValid (w : World) (inst : Identity) (ctx : MsgCtx) (acc : TraceAcc) : inv.Action → Bool
  | .call i args senderIdx =>
      let ctx := inv.asSender ctx senderIdx
      (inv.actions.get i).assumes.all fun cond => cond w inst ctx acc args
  | .advanceTime _ _ => true

end Invariant

/-! ### One step -/

/-- What a step carries along: the world, and the context where time can pass. -/
abbrev Carrier (World : Type) : Bool → Type
  | false => World
  | true => World × MsgCtx

/-- The type of `step` and `runTrace`, from `with_time` and `any_throwing`. -/
abbrev StepResult (World : Type) (withTime : Bool) : Bool → Type
  | false => Carrier World withTime
  | true => RouteResult (Carrier World withTime)

def carry : (withTime : Bool) → World → MsgCtx → Carrier World withTime
  | false, w, _ => w
  | true, w, ctx => (w, ctx)

/-- `emit_step_noop`. -/
def stepNoop (withTime : Bool) : (anyThrowing : Bool) → World → MsgCtx →
    StepResult World withTime anyThrowing
  | false, w, ctx => carry withTime w ctx
  | true, w, ctx => .ok (carry withTime w ctx)

/-- `format_step_result`. -/
def formatStepResult (withTime : Bool) (w : World) (inst : Identity) (ctx : MsgCtx) (args : Args) :
    (anyThrowing : Bool) → (r : RouteFn World Identity Args Val) →
      (r.routeFail = true → anyThrowing = true) → StepResult World withTime anyThrowing
  | false, .total f, _ => carry withTime (f w inst ctx args) ctx
  | false, .totalView f, _ => carry withTime (f w inst ctx args).fst ctx
  | true, .total f, _ => .ok (carry withTime (f w inst ctx args) ctx)
  | true, .totalView f, _ => .ok (carry withTime (f w inst ctx args).fst ctx)
  | true, .fails f, _ => (f w inst ctx args).map fun w' => carry withTime w' ctx
  | true, .failsView f, _ => (f w inst ctx args).map fun p => carry withTime p.fst ctx
  | false, .fails _, h => absurd (h rfl) Bool.false_ne_true
  | false, .failsView _, h => absurd (h rfl) Bool.false_ne_true

/-- The guard of an arm of `step`. -/
def ResolvedAction.runs (a : ResolvedAction World Identity Args Val) (w : World) (inst : Identity)
    (ctx : MsgCtx) (args : Args) : Bool :=
  (a.skipIfs.all fun cond => !cond w inst ctx) && a.stateBounds.all fun cond => cond w inst ctx args

namespace Invariant

variable (inv : Invariant World Identity Args Val)

theorem anyThrowing_of_routeFail (i : Fin inv.actions.length)
    (h : (inv.actions.get i).call.routeFail = true) : inv.anyThrowing = true :=
  List.any_eq_true.mpr ⟨_, List.get_mem inv.actions i, h⟩

/-- `step`. -/
def step (w : World) (inst : Identity) (ctx : MsgCtx) :
    inv.Action → StepResult World inv.withTime inv.anyThrowing
  | .call i args senderIdx =>
      let a := inv.actions.get i
      let ctx := inv.asSender ctx senderIdx
      if a.runs w inst ctx args && !a.isInit then
        formatStepResult inv.withTime w inst ctx args inv.anyThrowing a.call
          (inv.anyThrowing_of_routeFail i)
      else stepNoop inv.withTime inv.anyThrowing w ctx
  | .advanceTime _ delta =>
      stepNoop inv.withTime inv.anyThrowing w { ctx with timestamp := ctx.timestamp + delta }

end Invariant

/-! ### Whole traces -/

section Cells

variable {α : Type} (stepValid : World → MsgCtx → TraceAcc → α → Bool)
  (accUpdate : TraceAcc → α → TraceAcc)

/-- `traceValid`, as it is emitted outside the predictable profile. -/
def traceValidRec : (withTime anyThrowing : Bool) →
    (World → MsgCtx → α → StepResult World withTime anyThrowing) →
    World → MsgCtx → TraceAcc → List α → Bool
  | _, _, _, _, _, _, [] => true
  | false, false, step, w₀, ctx, acc, a :: rest =>
      stepValid w₀ ctx acc a &&
        traceValidRec false false step (step w₀ ctx a) ctx (accUpdate acc a) rest
  | false, true, step, w₀, ctx, acc, a :: rest =>
      stepValid w₀ ctx acc a &&
        match step w₀ ctx a with
        | .error _ => true
        | .ok w' => traceValidRec false true step w' ctx (accUpdate acc a) rest
  | true, false, step, w₀, ctx, acc, a :: rest =>
      stepValid w₀ ctx acc a &&
        let p := step w₀ ctx a
        traceValidRec true false step p.fst p.snd (accUpdate acc a) rest
  | true, true, step, w₀, ctx, acc, a :: rest =>
      stepValid w₀ ctx acc a &&
        match step w₀ ctx a with
        | .error _ => true
        | .ok p => traceValidRec true true step p.fst p.snd (accUpdate acc a) rest

/-- `predictable_trace_valid_fold`. -/
def predictableTraceValidFold : (withTime anyThrowing : Bool) →
    (World → MsgCtx → α → StepResult World withTime anyThrowing) →
    World → MsgCtx → TraceAcc → List α → Bool
  | false, false, step, w₀, ctx, acc, trace =>
      (trace.foldl (fun (s : World × TraceAcc × Bool) a =>
        (step s.1 ctx a, accUpdate s.2.1 a, s.2.2 && stepValid s.1 ctx s.2.1 a))
        (w₀, acc, true)).2.2
  | true, false, step, w₀, ctx, acc, trace =>
      (trace.foldl (fun (s : (World × MsgCtx) × TraceAcc × Bool) a =>
        (step s.1.1 s.1.2 a, accUpdate s.2.1 a, s.2.2 && stepValid s.1.1 s.1.2 s.2.1 a))
        ((w₀, ctx), acc, true)).2.2
  | false, true, step, w₀, ctx, acc, trace =>
      (trace.foldl (fun (s : RouteResult World × TraceAcc × Bool) a =>
        (s.1.bind (fun w => step w ctx a), accUpdate s.2.1 a,
          s.2.2 && (s.1.toOption.map (fun w => stepValid w ctx s.2.1 a)).getD true))
        (.ok w₀, acc, true)).2.2
  | true, true, step, w₀, ctx, acc, trace =>
      (trace.foldl (fun (s : RouteResult (World × MsgCtx) × TraceAcc × Bool) a =>
        (s.1.bind (fun p => step p.1 p.2 a), accUpdate s.2.1 a,
          s.2.2 && (s.1.toOption.map (fun p => stepValid p.1 p.2 s.2.1 a)).getD true))
        (.ok (w₀, ctx), acc, true)).2.2

/-- `runTrace`, as it is emitted outside the predictable profile. -/
def runTraceRec (failOnRevert : Bool) : (withTime anyThrowing : Bool) →
    (World → MsgCtx → α → StepResult World withTime anyThrowing) →
    World → MsgCtx → List α → StepResult World withTime anyThrowing
  | false, false, _, w₀, _, [] => w₀
  | false, true, _, w₀, _, [] => .ok w₀
  | true, false, _, w₀, ctx, [] => (w₀, ctx)
  | true, true, _, w₀, ctx, [] => .ok (w₀, ctx)
  | false, false, step, w₀, ctx, a :: rest =>
      runTraceRec failOnRevert false false step (step w₀ ctx a) ctx rest
  | false, true, step, w₀, ctx, a :: rest =>
      match step w₀ ctx a with
      | .error e =>
          if failOnRevert then .error e else runTraceRec failOnRevert false true step w₀ ctx rest
      | .ok w' => runTraceRec failOnRevert false true step w' ctx rest
  | true, false, step, w₀, ctx, a :: rest =>
      let p := step w₀ ctx a
      runTraceRec failOnRevert true false step p.fst p.snd rest
  | true, true, step, w₀, ctx, a :: rest =>
      match step w₀ ctx a with
      | .error e =>
          if failOnRevert then .error e else runTraceRec failOnRevert true true step w₀ ctx rest
      | .ok p => runTraceRec failOnRevert true true step p.fst p.snd rest

/-- `runTrace` in the predictable profile. -/
def runTraceFold : (failOnRevert withTime anyThrowing : Bool) →
    (World → MsgCtx → α → StepResult World withTime anyThrowing) →
    World → MsgCtx → List α → StepResult World withTime anyThrowing
  | _, false, false, step, w₀, ctx, trace => trace.foldl (fun (w : World) a => step w ctx a) w₀
  | _, true, false, step, w₀, ctx, trace =>
      trace.foldl (fun (p : World × MsgCtx) a => step p.fst p.snd a) (w₀, ctx)
  | false, false, true, step, w₀, ctx, trace =>
      .ok (trace.foldl (fun w a => (step w ctx a).toOption.getD w) w₀)
  | false, true, true, step, w₀, ctx, trace =>
      .ok (trace.foldl (fun p a => (step p.fst p.snd a).toOption.getD p) (w₀, ctx))
  | true, false, true, step, w₀, ctx, trace =>
      trace.foldlM (fun (w : World) a => (step w ctx a : RouteResult World)) w₀
  | true, true, true, step, w₀, ctx, trace =>
      trace.foldlM (fun (p : World × MsgCtx) a =>
        (step p.fst p.snd a : RouteResult (World × MsgCtx))) (w₀, ctx)

end Cells

namespace Invariant

variable (inv : Invariant World Identity Args Val) (predictable : Bool)

/-- `traceValid`. -/
def traceValid (w₀ : World) (inst : Identity) (ctx : MsgCtx) (acc : TraceAcc)
    (trace : List inv.Action) : Bool :=
  (if predictable then predictableTraceValidFold else traceValidRec)
    (fun w ctx acc a => inv.stepValid w inst ctx acc a) inv.accUpdate inv.withTime inv.anyThrowing
    (fun w ctx a => inv.step w inst ctx a) w₀ ctx acc trace

/-- `runTrace`. -/
def runTrace (w₀ : World) (inst : Identity) (ctx : MsgCtx) (trace : List inv.Action) :
    StepResult World inv.withTime inv.anyThrowing :=
  (if predictable then runTraceFold inv.failOnRevert else runTraceRec inv.failOnRevert)
    inv.withTime inv.anyThrowing (fun w ctx a => inv.step w inst ctx a) w₀ ctx trace

/-- `finalAcc`, a fold in both profiles. -/
def finalAcc (acc : TraceAcc) (trace : List inv.Action) : TraceAcc := trace.foldl inv.accUpdate acc

end Invariant

end CambrianLang.Invariants
