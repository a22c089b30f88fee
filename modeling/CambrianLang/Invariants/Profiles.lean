/-
  **The two profiles define the same functions of a trace**
  (`predictable_trace_valid_fold`, `emit_trace_valid`, `emit_run_trace`,
  `emit_multi_run_trace`, `emit_final_acc`, `format_step_result` in
  `codegen/lean/evm/invariant.rs`).

  The predictable profile replaces every recursion by a fold and the one `match` of a step by
  `Except.map`.  The functions are compared as they are emitted, for any `step`, `stepValid`
  and `accUpdate`; where no condition reads the trace, neither form carries an accumulator.
-/
import CambrianLang.Invariants.TraceFilter

namespace CambrianLang.Invariants

open GuardedTraces Prelude

variable {World Identity Insts Args Val α : Type}

/-! ### What is emitted without an accumulator, and for several entities -/

/-- `traceValid` outside the predictable profile, when no condition reads the trace. -/
def traceValidPlainRec (stepValid : World → MsgCtx → α → Bool) : (withTime anyThrowing : Bool) →
    (World → MsgCtx → α → StepResult World withTime anyThrowing) →
    World → MsgCtx → List α → Bool
  | _, _, _, _, _, [] => true
  | false, false, step, w₀, ctx, a :: rest =>
      stepValid w₀ ctx a && traceValidPlainRec stepValid false false step (step w₀ ctx a) ctx rest
  | false, true, step, w₀, ctx, a :: rest =>
      stepValid w₀ ctx a &&
        match step w₀ ctx a with
        | .error _ => true
        | .ok w' => traceValidPlainRec stepValid false true step w' ctx rest
  | true, false, step, w₀, ctx, a :: rest =>
      stepValid w₀ ctx a &&
        let p := step w₀ ctx a
        traceValidPlainRec stepValid true false step p.fst p.snd rest
  | true, true, step, w₀, ctx, a :: rest =>
      stepValid w₀ ctx a &&
        match step w₀ ctx a with
        | .error _ => true
        | .ok p => traceValidPlainRec stepValid true true step p.fst p.snd rest

/-- `predictable_trace_valid_fold` with `needs_acc = false`. -/
def predictableTraceValidPlainFold (stepValid : World → MsgCtx → α → Bool) :
    (withTime anyThrowing : Bool) →
    (World → MsgCtx → α → StepResult World withTime anyThrowing) →
    World → MsgCtx → List α → Bool
  | false, false, step, w₀, ctx, trace =>
      (trace.foldl (fun (s : World × Bool) a =>
        (step s.1 ctx a, s.2 && stepValid s.1 ctx a)) (w₀, true)).2
  | true, false, step, w₀, ctx, trace =>
      (trace.foldl (fun (s : (World × MsgCtx) × Bool) a =>
        (step s.1.1 s.1.2 a, s.2 && stepValid s.1.1 s.1.2 a)) ((w₀, ctx), true)).2
  | false, true, step, w₀, ctx, trace =>
      (trace.foldl (fun (s : RouteResult World × Bool) a =>
        (s.1.bind (fun w => step w ctx a),
          s.2 && (s.1.toOption.map (fun w => stepValid w ctx a)).getD true))
        (.ok w₀, true)).2
  | true, true, step, w₀, ctx, trace =>
      (trace.foldl (fun (s : RouteResult (World × MsgCtx) × Bool) a =>
        (s.1.bind (fun p => step p.1 p.2 a),
          s.2 && (s.1.toOption.map (fun p => stepValid p.1 p.2 a)).getD true))
        (.ok (w₀, ctx), true)).2

/-- `emit_run_trace`. -/
def emitRunTrace (predictable failOnRevert withTime anyThrowing : Bool)
    (step : World → Identity → MsgCtx → α → StepResult World withTime anyThrowing)
    (w₀ : World) (inst : Identity) (ctx : MsgCtx) (trace : List α) :
    StepResult World withTime anyThrowing :=
  (if predictable then runTraceFold failOnRevert else runTraceRec failOnRevert)
    withTime anyThrowing (fun w ctx a => step w inst ctx a) w₀ ctx trace

/-- `emit_multi_run_trace`: the instances come after the context. -/
def emitMultiRunTrace (predictable failOnRevert withTime anyThrowing : Bool)
    (step : World → MsgCtx → Insts → α → StepResult World withTime anyThrowing)
    (w₀ : World) (ctx : MsgCtx) (insts : Insts) (trace : List α) :
    StepResult World withTime anyThrowing :=
  (if predictable then runTraceFold failOnRevert else runTraceRec failOnRevert)
    withTime anyThrowing (fun w ctx a => step w ctx insts a) w₀ ctx trace

/-- `emit_final_acc`. -/
def emitFinalAcc (predictable : Bool) (accUpdate : TraceAcc → α → TraceAcc) (acc : TraceAcc)
    (trace : List α) : TraceAcc :=
  if predictable then trace.foldl accUpdate acc else finalAccRec acc trace
where
  finalAccRec : TraceAcc → List α → TraceAcc
    | acc, [] => acc
    | acc, a :: rest => finalAccRec (accUpdate acc a) rest

/-- `format_step_result` in each profile.  The profiles differ where time passes and the
    route can fail. -/
def emitStepResult (predictable : Bool) (w : World) (inst : Identity) (ctx : MsgCtx) (args : Args) :
    (withTime anyThrowing : Bool) → (r : RouteFn World Identity Args Val) →
      (r.routeFail = true → anyThrowing = true) → StepResult World withTime anyThrowing
  | false, false, .total f, _ => f w inst ctx args
  | false, false, .totalView f, _ => (f w inst ctx args).fst
  | false, true, .fails f, _ => f w inst ctx args
  | false, true, .failsView f, _ => (f w inst ctx args).map fun p => p.fst
  | false, true, .total f, _ => .ok (f w inst ctx args)
  | false, true, .totalView f, _ => .ok (f w inst ctx args).fst
  | true, false, .total f, _ => (f w inst ctx args, ctx)
  | true, false, .totalView f, _ => ((f w inst ctx args).fst, ctx)
  | true, true, .fails f, _ =>
      if predictable then (f w inst ctx args).map fun w' => (w', ctx)
      else match f w inst ctx args with
        | .error e => .error e
        | .ok w' => .ok (w', ctx)
  | true, true, .failsView f, _ =>
      if predictable then (f w inst ctx args).map fun p => (p.fst, ctx)
      else match f w inst ctx args with
        | .error e => .error e
        | .ok p => .ok (p.fst, ctx)
  | true, true, .total f, _ => .ok (f w inst ctx args, ctx)
  | true, true, .totalView f, _ => .ok ((f w inst ctx args).fst, ctx)
  | _, false, .fails _, h => (Bool.false_ne_true (h rfl)).elim
  | _, false, .failsView _, h => (Bool.false_ne_true (h rfl)).elim

/-! ### Step by step -/

section Cells

variable {stepValid : World → MsgCtx → α → Bool}

theorem traceValidPlainRec_eq_screen {withTime anyThrowing : Bool}
    (step : World → MsgCtx → α → StepResult World withTime anyThrowing) (w : World) (ctx : MsgCtx)
    (trace : List α) :
    traceValidPlainRec stepValid withTime anyThrowing step w ctx trace =
      screen (transition step) (fun (_ : Unit) _ => ()) (fun s _ => stepValid s.1 s.2) (w, ctx) ()
        trace := by
  induction trace generalizing w ctx with
  | nil => cases withTime <;> cases anyThrowing <;> rfl
  | cons a rest ih =>
    cases withTime <;> cases anyThrowing
    · simp only [traceValidPlainRec, screen, transition, landed, ih]
    · cases hstep : (step w ctx a : RouteResult World) with
      | error e => simp [traceValidPlainRec, screen, transition, landed, hstep, Except.toOption]
      | ok w' => simp [traceValidPlainRec, screen, transition, landed, hstep, Except.toOption, ih]
    · simp only [traceValidPlainRec, screen, transition, landed, ih]
    · cases hstep : (step w ctx a : RouteResult (World × MsgCtx)) with
      | error e => simp [traceValidPlainRec, screen, transition, landed, hstep, Except.toOption]
      | ok p => simp [traceValidPlainRec, screen, transition, landed, hstep, Except.toOption, ih]

theorem predictableTraceValidPlainFold_eq_screen {withTime anyThrowing : Bool}
    (step : World → MsgCtx → α → StepResult World withTime anyThrowing) (w : World) (ctx : MsgCtx)
    (trace : List α) :
    predictableTraceValidPlainFold stepValid withTime anyThrowing step w ctx trace =
      screen (transition step) (fun (_ : Unit) _ => ()) (fun s _ => stepValid s.1 s.2) (w, ctx) ()
        trace := by
  cases withTime <;> cases anyThrowing
  · apply foldl_eq_screen (fun s : World × Bool => (some (s.1, ctx), (), s.2))
    · rintro ⟨w', ok⟩ a
      rfl
    · rfl
  · apply foldl_eq_screen (fun s : RouteResult World × Bool =>
      (s.1.toOption.map fun w' => (w', ctx), (), s.2))
    · rintro ⟨r, ok⟩ a
      cases r <;> rfl
    · rfl
  · apply foldl_eq_screen (fun s : (World × MsgCtx) × Bool => (some s.1, (), s.2))
    · rintro ⟨p, ok⟩ a
      rfl
    · rfl
  · apply foldl_eq_screen (fun s : RouteResult (World × MsgCtx) × Bool => (s.1.toOption, (), s.2))
    · rintro ⟨r, ok⟩ a
      cases r <;> rfl
    · rfl

theorem foldl_accUpdate_eq (accUpdate : TraceAcc → α → TraceAcc) (acc : TraceAcc)
    (trace : List α) :
    trace.foldl accUpdate acc = emitFinalAcc.finalAccRec accUpdate acc trace := by
  induction trace generalizing acc with
  | nil => rfl
  | cons a rest ih => rw [List.foldl_cons, ih, emitFinalAcc.finalAccRec]

end Cells

/-- In both profiles a step has the result that the model of `step` gives it. -/
theorem emitStepResult_eq (predictable : Bool) (w : World) (inst : Identity) (ctx : MsgCtx)
    (args : Args) (withTime anyThrowing : Bool) (r : RouteFn World Identity Args Val)
    (h : r.routeFail = true → anyThrowing = true) :
    emitStepResult predictable w inst ctx args withTime anyThrowing r h =
      formatStepResult withTime w inst ctx args anyThrowing r h := by
  cases withTime <;> cases anyThrowing <;> cases r
  case true.true.fails f | true.true.failsView f =>
    cases hr : f w inst ctx args <;> cases predictable <;>
      simp [emitStepResult, formatStepResult, hr, Except.map, carry]
  case false.true.fails f =>
    cases hr : f w inst ctx args <;> simp [emitStepResult, formatStepResult, hr, Except.map, carry]
  all_goals rfl

/-- **Both profiles define the same functions of a trace**, in every cell: `traceValid` with
    and without an accumulator, `runTrace` of one entity and of several for both values of
    `fail_on_revert`, `finalAcc`, and the result of a step. -/
theorem profiles_agree :
    (∀ (withTime anyThrowing : Bool) (step : World → MsgCtx → α → StepResult World withTime anyThrowing)
      (stepValid : World → MsgCtx → TraceAcc → α → Bool) (accUpdate : TraceAcc → α → TraceAcc)
      (w : World) (ctx : MsgCtx) (acc : TraceAcc) (trace : List α),
      predictableTraceValidFold stepValid accUpdate withTime anyThrowing step w ctx acc trace =
        traceValidRec stepValid accUpdate withTime anyThrowing step w ctx acc trace) ∧
    (∀ (withTime anyThrowing : Bool) (step : World → MsgCtx → α → StepResult World withTime anyThrowing)
      (stepValid : World → MsgCtx → α → Bool) (w : World) (ctx : MsgCtx) (trace : List α),
      predictableTraceValidPlainFold stepValid withTime anyThrowing step w ctx trace =
        traceValidPlainRec stepValid withTime anyThrowing step w ctx trace) ∧
    (∀ (failOnRevert withTime anyThrowing : Bool)
      (step : World → Identity → MsgCtx → α → StepResult World withTime anyThrowing)
      (w : World) (inst : Identity) (ctx : MsgCtx) (trace : List α),
      emitRunTrace true failOnRevert withTime anyThrowing step w inst ctx trace =
        emitRunTrace false failOnRevert withTime anyThrowing step w inst ctx trace) ∧
    (∀ (failOnRevert withTime anyThrowing : Bool)
      (step : World → MsgCtx → Insts → α → StepResult World withTime anyThrowing)
      (w : World) (ctx : MsgCtx) (insts : Insts) (trace : List α),
      emitMultiRunTrace true failOnRevert withTime anyThrowing step w ctx insts trace =
        emitMultiRunTrace false failOnRevert withTime anyThrowing step w ctx insts trace) ∧
    (∀ (accUpdate : TraceAcc → α → TraceAcc) (acc : TraceAcc) (trace : List α),
      emitFinalAcc true accUpdate acc trace = emitFinalAcc false accUpdate acc trace) ∧
    ∀ (w : World) (inst : Identity) (ctx : MsgCtx) (args : Args) (withTime anyThrowing : Bool)
      (r : RouteFn World Identity Args Val) (h : r.routeFail = true → anyThrowing = true),
      emitStepResult true w inst ctx args withTime anyThrowing r h =
        emitStepResult false w inst ctx args withTime anyThrowing r h := by
  refine ⟨?_, ?_, ?_, ?_, ?_, ?_⟩
  · intro withTime anyThrowing step stepValid accUpdate w ctx acc trace
    rw [predictableTraceValidFold_eq_screen, traceValidRec_eq_screen]
  · intro withTime anyThrowing step stepValid w ctx trace
    rw [predictableTraceValidPlainFold_eq_screen, traceValidPlainRec_eq_screen]
  · intro failOnRevert withTime anyThrowing step w inst ctx trace
    exact runTraceFold_eq failOnRevert _ w ctx trace
  · intro failOnRevert withTime anyThrowing step w ctx insts trace
    exact runTraceFold_eq failOnRevert _ w ctx trace
  · intro accUpdate acc trace
    exact foldl_accUpdate_eq accUpdate acc trace
  · intro w inst ctx args withTime anyThrowing r h
    rw [emitStepResult_eq, emitStepResult_eq]

end CambrianLang.Invariants
