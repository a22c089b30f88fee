/-
  **The traces that `traceValid` lets through**
  (`emit_trace_valid`, `emit_run_trace` in `codegen/lean/evm/invariant.rs`).

  `runTrace` and `traceValid` are two folds over one trace.  In all cells and in both
  profiles the first is a run of the actions and the second a test of the `assume`s on the
  way, which ends at the first action that reverts; without `fail_on_revert` the run does
  not end there.
-/
import CambrianLang.Invariants.Emission

namespace CambrianLang.Invariants

open GuardedTraces Prelude

variable {World Identity Args Val α : Type}

/-! ### The cells as one run -/

/-- The world and context after a step that does not revert. -/
def landed : (withTime anyThrowing : Bool) → StepResult World withTime anyThrowing → MsgCtx →
    Option (World × MsgCtx)
  | false, false, w, ctx => some (w, ctx)
  | true, false, p, _ => some p
  | false, true, r, ctx => r.toOption.map fun w => (w, ctx)
  | true, true, r, _ => r.toOption

/-- A step on a world and a context. -/
def transition {withTime anyThrowing : Bool}
    (step : World → MsgCtx → α → StepResult World withTime anyThrowing) (s : World × MsgCtx) (a : α) :
    Option (World × MsgCtx) :=
  landed withTime anyThrowing (step s.1 s.2 a) s.2

section Cells

variable {stepValid : World → MsgCtx → TraceAcc → α → Bool} {accUpdate : TraceAcc → α → TraceAcc}

theorem traceValidRec_eq_screen {withTime anyThrowing : Bool}
    (step : World → MsgCtx → α → StepResult World withTime anyThrowing) (w : World) (ctx : MsgCtx)
    (acc : TraceAcc) (trace : List α) :
    traceValidRec stepValid accUpdate withTime anyThrowing step w ctx acc trace =
      screen (transition step) accUpdate (fun s => stepValid s.1 s.2) (w, ctx) acc trace := by
  induction trace generalizing w ctx acc with
  | nil => cases withTime <;> cases anyThrowing <;> rfl
  | cons a rest ih =>
    cases withTime <;> cases anyThrowing
    · simp only [traceValidRec, screen, transition, landed, ih]
    · cases hstep : (step w ctx a : RouteResult World) with
      | error e => simp [traceValidRec, screen, transition, landed, hstep, Except.toOption]
      | ok w' => simp [traceValidRec, screen, transition, landed, hstep, Except.toOption, ih]
    · simp only [traceValidRec, screen, transition, landed, ih]
    · cases hstep : (step w ctx a : RouteResult (World × MsgCtx)) with
      | error e => simp [traceValidRec, screen, transition, landed, hstep, Except.toOption]
      | ok p => simp [traceValidRec, screen, transition, landed, hstep, Except.toOption, ih]

/-- The predictable fold is the pass, seen through the states it keeps. -/
theorem predictableTraceValidFold_eq_screen {withTime anyThrowing : Bool}
    (step : World → MsgCtx → α → StepResult World withTime anyThrowing) (w : World) (ctx : MsgCtx)
    (acc : TraceAcc) (trace : List α) :
    predictableTraceValidFold stepValid accUpdate withTime anyThrowing step w ctx acc trace =
      screen (transition step) accUpdate (fun s => stepValid s.1 s.2) (w, ctx) acc trace := by
  cases withTime <;> cases anyThrowing
  · apply foldl_eq_screen (fun s : World × TraceAcc × Bool => (some (s.1, ctx), s.2))
    · rintro ⟨w', acc', ok⟩ a
      rfl
    · rfl
  · apply foldl_eq_screen (fun s : RouteResult World × TraceAcc × Bool =>
      (s.1.toOption.map fun w' => (w', ctx), s.2))
    · rintro ⟨r, acc', ok⟩ a
      cases r <;> rfl
    · rfl
  · apply foldl_eq_screen (fun s : (World × MsgCtx) × TraceAcc × Bool => (some s.1, s.2))
    · rintro ⟨p, acc', ok⟩ a
      rfl
    · rfl
  · apply foldl_eq_screen (fun s : RouteResult (World × MsgCtx) × TraceAcc × Bool =>
      (s.1.toOption, s.2))
    · rintro ⟨r, acc', ok⟩ a
      cases r <;> rfl
    · rfl

theorem landed_runTraceRec (failOnRevert : Bool) {withTime anyThrowing : Bool}
    (step : World → MsgCtx → α → StepResult World withTime anyThrowing) (w : World) (ctx : MsgCtx)
    (trace : List α) :
    landed withTime anyThrowing (runTraceRec failOnRevert withTime anyThrowing step w ctx trace) ctx =
      reached (transition step) failOnRevert (w, ctx) trace := by
  induction trace generalizing w ctx with
  | nil => cases withTime <;> cases anyThrowing <;> rfl
  | cons a rest ih =>
    cases withTime <;> cases anyThrowing
    · simp only [runTraceRec, reached, transition, landed, ← ih]
    · cases hstep : (step w ctx a : RouteResult World) with
      | error e =>
        cases failOnRevert
        · simp [runTraceRec, reached, transition, landed, hstep, Except.toOption, ← ih]
        · simp [runTraceRec, reached, transition, landed, hstep, Except.toOption]
      | ok w' => simp [runTraceRec, reached, transition, landed, hstep, Except.toOption, ← ih]
    · simp only [runTraceRec, reached, transition, landed, ← ih]
    · cases hstep : (step w ctx a : RouteResult (World × MsgCtx)) with
      | error e =>
        cases failOnRevert
        · simp [runTraceRec, reached, transition, landed, hstep, Except.toOption, ← ih]
        · simp [runTraceRec, reached, transition, landed, hstep, Except.toOption]
      | ok p => simp [runTraceRec, reached, transition, landed, hstep, Except.toOption, ← ih]

/-- The folds of `runTrace` are its recursion, error codes included. -/
theorem runTraceFold_eq (failOnRevert : Bool) {withTime anyThrowing : Bool}
    (step : World → MsgCtx → α → StepResult World withTime anyThrowing) (w : World) (ctx : MsgCtx)
    (trace : List α) :
    runTraceFold failOnRevert withTime anyThrowing step w ctx trace =
      runTraceRec failOnRevert withTime anyThrowing step w ctx trace := by
  induction trace generalizing w ctx with
  | nil => cases withTime <;> cases anyThrowing <;> cases failOnRevert <;> rfl
  | cons a rest ih =>
    cases withTime <;> cases anyThrowing
    · rw [runTraceRec, ← ih]
      cases failOnRevert <;> rfl
    · cases hstep : (step w ctx a : RouteResult World) with
      | error e =>
        cases failOnRevert
        · simp [runTraceFold, runTraceRec, hstep, Except.toOption, ← ih]
        · simp [runTraceFold, runTraceRec, hstep]
          rfl
      | ok w' =>
        cases failOnRevert
        · simp [runTraceFold, runTraceRec, hstep, Except.toOption, ← ih]
        · simp [runTraceFold, runTraceRec, hstep, ← ih]
          rfl
    · rw [runTraceRec, ← ih]
      cases failOnRevert <;> rfl
    · cases hstep : (step w ctx a : RouteResult (World × MsgCtx)) with
      | error e =>
        cases failOnRevert
        · simp [runTraceFold, runTraceRec, hstep, Except.toOption, ← ih]
        · simp [runTraceFold, runTraceRec, hstep]
          rfl
      | ok p =>
        cases failOnRevert
        · simp [runTraceFold, runTraceRec, hstep, Except.toOption, ← ih]
        · simp [runTraceFold, runTraceRec, hstep, ← ih]
          rfl

end Cells

namespace Invariant

variable (inv : Invariant World Identity Args Val) (predictable : Bool)

/-- One action of the invariant. -/
def takes (inst : Identity) (s : World × MsgCtx) (a : inv.Action) : Option (World × MsgCtx) :=
  transition (fun w ctx a => inv.step w inst ctx a) s a

/-- The world and context that `runTrace` reaches. -/
def runReaches (w : World) (inst : Identity) (ctx : MsgCtx) (trace : List inv.Action) :
    Option (World × MsgCtx) :=
  landed inv.withTime inv.anyThrowing (inv.runTrace predictable w inst ctx trace) ctx

/-- Every action satisfies its `assume`s in the world, context and accumulator in which the
    run takes it. -/
def AssumesHold (w : World) (inst : Identity) (ctx : MsgCtx) (acc : TraceAcc)
    (trace : List inv.Action) : Prop :=
  ∀ pre a post, trace = pre ++ a :: post →
    ∀ w' ctx', inv.runReaches predictable w inst ctx pre = some (w', ctx') →
      inv.stepValid w' inst ctx' (inv.finalAcc acc pre) a = true

/-- If the first action that reverts and all before it satisfy their `assume`s, so do the
    actions after it, in the run that goes on. -/
def AssumesHoldAfterRevert (w : World) (inst : Identity) (ctx : MsgCtx) (acc : TraceAcc)
    (trace : List inv.Action) : Prop :=
  ValidAfterFailure (inv.takes inst) inv.accUpdate (fun s => inv.stepValid s.1 inst s.2) (w, ctx) acc
    trace

theorem runReaches_eq (w : World) (inst : Identity) (ctx : MsgCtx) (trace : List inv.Action) :
    inv.runReaches predictable w inst ctx trace =
      reached (inv.takes inst) inv.failOnRevert (w, ctx) trace := by
  cases predictable
  · exact landed_runTraceRec _ _ _ _ _
  · rw [runReaches, runTrace, if_pos rfl, runTraceFold_eq]
    exact landed_runTraceRec _ _ _ _ _

theorem traceValid_eq (w : World) (inst : Identity) (ctx : MsgCtx) (acc : TraceAcc)
    (trace : List inv.Action) :
    inv.traceValid predictable w inst ctx acc trace =
      screen (inv.takes inst) inv.accUpdate (fun s => inv.stepValid s.1 inst s.2) (w, ctx) acc
        trace := by
  rw [traceValid]
  cases predictable with
  | false => exact traceValidRec_eq_screen _ _ _ _ _
  | true =>
    rw [if_pos rfl, predictableTraceValidFold_eq_screen]
    rfl

theorem assumesHold_iff {w : World} {inst : Identity} {ctx : MsgCtx} {acc : TraceAcc}
    {trace : List inv.Action} :
    inv.AssumesHold predictable w inst ctx acc trace ↔
      Selected (inv.takes inst) inv.accUpdate (fun s => inv.stepValid s.1 inst s.2) inv.failOnRevert
        (w, ctx) acc trace := by
  simp only [AssumesHold, Selected, runReaches_eq, Prod.forall]
  rfl

/-- **The filter and the run.**  `traceValid` selects the traces whose actions all satisfy
    their `assume`s exactly when the run stops where the filter does or the actions after
    the first revert satisfy theirs. -/
theorem traceValid_exact_iff (w : World) (inst : Identity) (ctx : MsgCtx) (acc : TraceAcc)
    (trace : List inv.Action) :
    (inv.traceValid predictable w inst ctx acc trace = true ↔
        inv.AssumesHold predictable w inst ctx acc trace) ↔
      (inv.failOnRevert = false → inv.AssumesHoldAfterRevert w inst ctx acc trace) := by
  rw [traceValid_eq, assumesHold_iff]
  cases inv.failOnRevert with
  | true => simp [screen_iff]
  | false => simp [AssumesHoldAfterRevert, screen_exact_iff]

end Invariant

/-! ### An assume after a revert -/

/-- `withdraw`, which throws when the total is too small, and `deposit` with
    `assume amount > 0`. -/
def vaultInvariant : Invariant Nat Unit Nat Unit where
  actions :=
    [{ route := "withdraw", isInit := false
       call := .fails fun w _ _ amount => if amount ≤ w then .ok (w - amount) else .error (.ofNat 1)
       skipIfs := [], stateBounds := [], assumes := [] },
     { route := "deposit", isInit := false
       call := .total fun w _ _ amount => w + amount
       skipIfs := [], stateBounds := [], assumes := [fun _ _ _ _ amount => decide (0 < amount)] }]
  senders := []
  withTime := false
  failOnRevert := false
  shape := ⟨false, [], false⟩

def vaultCtx : MsgCtx := ⟨0, 0, 0, 1⟩

/-- Nothing to withdraw, then a deposit of nothing. -/
def vaultTrace : List vaultInvariant.Action := [.call ⟨0, by decide⟩ 5 0, .call ⟨1, by decide⟩ 0 0]

theorem not_assumesHold_vaultTrace (predictable : Bool) :
    ¬ vaultInvariant.AssumesHold predictable 0 () vaultCtx accInit vaultTrace := by
  intro h
  have hdeposit := h [.call ⟨0, by decide⟩ 5 0] (.call ⟨1, by decide⟩ 0 0) [] rfl 0 vaultCtx
    (by cases predictable <;> rfl)
  exact absurd hdeposit (by decide)

/-- The trace is let through in both profiles. -/
theorem empty_deposit_admitted :
    vaultInvariant.traceValid false 0 () vaultCtx accInit vaultTrace = true ∧
      vaultInvariant.traceValid true 0 () vaultCtx accInit vaultTrace = true ∧
      ¬ vaultInvariant.AssumesHold false 0 () vaultCtx accInit vaultTrace ∧
      ¬ vaultInvariant.AssumesHold true 0 () vaultCtx accInit vaultTrace :=
  ⟨rfl, rfl, not_assumesHold_vaultTrace false, not_assumesHold_vaultTrace true⟩

end CambrianLang.Invariants
