/-
  **The proposition written for a list of events** (`emit_body`,
  `codegen/lean/evm/spec_steps.rs`), in both profiles, and what it says.

  A position in the events is kept as its index with the events from there on.  How an
  expression or a call is rendered does not matter here: the rendered parts get their
  meaning from outside.
-/
import CambrianLang.Prelude.Math
import CambrianLang.Spec.Events

namespace CambrianLang.Spec

open Ast Prelude Validate

/-! ### Throws -/

def collectFrom : Nat → Option Nat → List SpecEvent → List (Nat × Nat)
  | _, _, [] => []
  | i, _, .wrappedCall _ :: es => collectFrom (i + 1) (some i) es
  | i, pending, .expectThrow code :: es =>
      (pending.map (·, code)).toList ++ collectFrom (i + 1) none es
  | i, _, .rawCall _ :: es => collectFrom (i + 1) none es
  | i, pending, _ :: es => collectFrom (i + 1) pending es

/-- `collect_throw_targets`: the calls an `expect throw` is paired with. -/
def collectThrowTargets (events : List SpecEvent) : List (Nat × Nat) := collectFrom 0 none events

/-- `index_after_throw_pair`. -/
def indexAfterThrowPair : Nat → List SpecEvent → Option (Nat × List SpecEvent)
  | i, .expect _ :: es => indexAfterThrowPair (i + 1) es
  | i, .expectThrow _ :: es => some (i + 1, es)
  | _, _ => none

theorem length_afterThrowPair {i j : Nat} {es rest : List SpecEvent}
    (h : indexAfterThrowPair i es = some (j, rest)) : rest.length < es.length := by
  induction es generalizing i with
  | nil => cases h
  | cons e es ih =>
    cases e with
    | expect e => exact Nat.lt_succ_of_lt (ih h)
    | expectThrow code =>
      cases h
      exact Nat.lt_succ_self _
    | letE | setMsgCtx | setSysCtx | rawCall | wrappedCall | installPeer | expectEmit | comment =>
      cases h

/-! ### The emitted term -/

/-- The context a call is made with: `ctx`, or `ctx_call` with its own `value`. -/
inductive CtxVar where
  | ctx
  | ctxCall
deriving DecidableEq

/-- A rendered expectation; `result` is the `_result_N` it mentions. -/
inductive Assertion where
  | expect (e : Expectation) (result : Option Nat)
  | emitted (eventName : String) (args : List Expr)

/-- The emitted proposition.  A binder `__eN`, `_result_N` or `n_throw_N` is its number. -/
inductive Goal where
  | conj (names : List Nat)
  | letValue (name : String) (ty : Option Ty) (value : Expr) (body : Goal)
  | letCtx (fields : List (String × Expr)) (body : Goal)
  | letBlock (fields : List (String × Expr)) (body : Goal)
  | letPeer (peer inst : String) (initState : List (String × Expr)) (body : Goal)
  | letCtxCall (value : Expr) (body : Goal)
  | letWorld (call : RouteCall) (cv : CtxVar) (body : Goal)
  | letView (call : RouteCall) (cv : CtxVar) (result : Nat) (body : Goal)
  | letExpect (name : Nat) (prop : Assertion) (body : Goal)
  | errCodeIs (call : RouteCall) (cv : CtxVar) (code : Nat)
  | errCodeIsAnd (call : RouteCall) (cv : CtxVar) (code : Nat) (rest : Goal)
  | okAnd (call : RouteCall) (cv : CtxVar) (result : Option Nat) (body : Goal)
  /-- `match call with | .error n => n = code | .ok _ => False` -/
  | matchThrow (call : RouteCall) (cv : CtxVar) (arm code : Nat)
  | matchThrowAnd (call : RouteCall) (cv : CtxVar) (arm code : Nat) (rest : Goal)
  | matchOk (call : RouteCall) (cv : CtxVar) (result : Option Nat) (body : Goal)

/-! ### Emission -/

structure EmitState where
  resultIdx : Nat
  expectIdx : Nat
  throwArmIdx : Nat
  expectNames : List Nat
  currentResult : Option Nat
  pendingMsgValue : Option Expr
  pendingExpectEmit : Option (String × List Expr)

def EmitState.new : EmitState := ⟨0, 0, 0, [], none, none, none⟩

/-- `alloc_expect` with its `let`. -/
def EmitState.bindExpect (st : EmitState) (prop : Assertion) (k : EmitState → Goal) : Goal :=
  .letExpect st.expectIdx prop
    (k { st with expectIdx := st.expectIdx + 1, expectNames := st.expectNames ++ [st.expectIdx] })

/-- `alloc_result`. -/
def EmitState.allocResult (st : EmitState) : EmitState :=
  { st with resultIdx := st.resultIdx + 1, currentResult := some st.resultIdx }

/-- `flush_pending_expect_emit`. -/
def EmitState.flushPending (st : EmitState) (k : EmitState → Goal) : Goal :=
  match st.pendingExpectEmit with
  | some (eventName, args) =>
      { st with pendingExpectEmit := none }.bindExpect (.emitted eventName args) k
  | none => k st

/-- `bind_one_shot_msg_ctx`. -/
def EmitState.bindOneShotMsgCtx (st : EmitState) (k : CtxVar → EmitState → Goal) : Goal :=
  match st.pendingMsgValue with
  | some value => .letCtxCall value (k .ctxCall { st with pendingMsgValue := none })
  | none => k .ctx st

/-- The `value` of a `msg` step, which is for the next call only. -/
def msgValue (fields : List (String × Expr)) : Option Expr :=
  ((fields.filter (·.1 == "value")).getLast?).map (·.2)

def stickyFields (fields : List (String × Expr)) : List (String × Expr) :=
  fields.filter (·.1 != "value")

/-- `sys_block_field`. -/
def sysBlockField (field : String) : Option String :=
  if ["now", "timestamp"].contains field then some "timestamp"
  else if ["block_number", "blocknumber", "blockNumber", "number"].contains field then
    some "number"
  else if ["chainid", "chain_id", "chainId"].contains field then some "chainId"
  else none

def blockFields (fields : List (String × Expr)) : List (String × Expr) :=
  fields.filterMap fun f => (sysBlockField f.1).map (·, f.2)

/-- `emit_raw_call`. -/
def emitRawCall (st : EmitState) (call : RouteCall) (k : EmitState → Goal) : Goal :=
  st.bindOneShotMsgCtx fun cv st =>
    if call.isView then .letView call cv st.resultIdx (k st.allocResult)
    else .letWorld call cv (k { st with currentResult := none })

variable (predictable : Bool) (targets : List (Nat × Nat))

/-- The loop of `emit_body_rec` and its three ends.  A run of success expectations is
    flushed one by one, and what is emitted after a call starts with a flush. -/
def emitLoop (i : Nat) (events : List SpecEvent) (st : EmitState) : Goal :=
  match events with
  | [] => .conj st.expectNames
  | .letE name ty value :: es => .letValue (leanSafeIdent name) ty value (emitLoop (i + 1) es st)
  | .setMsgCtx fields :: es =>
      let st := { st with pendingMsgValue := (msgValue fields).or st.pendingMsgValue }
      if (stickyFields fields).isEmpty then emitLoop (i + 1) es st
      else .letCtx (stickyFields fields) (emitLoop (i + 1) es st)
  | .setSysCtx fields :: es =>
      if (blockFields fields).isEmpty then emitLoop (i + 1) es st
      else .letBlock (blockFields fields) (emitLoop (i + 1) es st)
  | .installPeer peer inst _ initState :: es =>
      .letPeer peer inst initState (emitLoop (i + 1) es st)
  | .expectEmit eventName args :: es =>
      emitLoop (i + 1) es { st with pendingExpectEmit := some (eventName, args) }
  | .comment _ :: es => emitLoop (i + 1) es st
  | .expectThrow _ :: es => emitLoop (i + 1) es st
  | .expect e :: es =>
      st.flushPending fun st =>
        st.bindExpect (.expect e st.currentResult) fun st => emitLoop (i + 1) es st
  | .rawCall call :: es =>
      emitRawCall st call fun st => st.flushPending fun st => emitLoop (i + 1) es st
  | .wrappedCall call :: es =>
      st.bindOneShotMsgCtx fun cv st =>
        match targets.lookup i with
        | some code =>
            match h : indexAfterThrowPair (i + 1) es with
            | some (j, e :: rest) =>
                have := length_afterThrowPair h
                if predictable then
                  .errCodeIsAnd call cv code (st.flushPending fun st => emitLoop j (e :: rest) st)
                else
                  .matchThrowAnd call cv st.throwArmIdx code
                    ({ st with throwArmIdx := st.throwArmIdx + 1 }.flushPending fun st =>
                      emitLoop j (e :: rest) st)
            | _ =>
                if predictable then .errCodeIs call cv code
                else .matchThrow call cv st.throwArmIdx code
        | none =>
            let result := if call.isView then some st.resultIdx else none
            let body := (if call.isView then st.allocResult else st).flushPending fun st =>
              emitLoop (i + 1) es st
            if predictable then .okAnd call cv result body else .matchOk call cv result body
termination_by events.length
decreasing_by all_goals simp only [List.length_cons] at *; omega

/-- `emit_body` over all events. -/
def emitBody (events : List SpecEvent) : Goal :=
  EmitState.new.flushPending fun st =>
    emitLoop predictable (collectThrowTargets events) 0 events st

/-! ### What a statement says -/

/-- The names in scope of a rendered expression. -/
structure Scope (W C V : Type) where
  world : W
  ctx : C
  lets : List (String × V)

/-- An expression reads the entity under test, through `inst`. -/
def readsEntity (entity : Entity) (e : Expr) : Bool :=
  (walkExprSubtree.walk e).any fun
    | .ident n => entity.members.any (·.name == n)
    | .macroRef _ _ | .sysField _ => true
    | _ => false

def Expectation.readsResult : Expectation → Bool
  | .ret _ | .retTuple _ | .retLens _ _ => true
  | .pred cond => exprMentionsIdent cond expectResultName
  | .state _ | .transfers _ | .effectsUnmodelable => false

def Expectation.exprs : Expectation → List Expr
  | .state fields => fields.flatMap fun f => f.1.flatMap PathSegment.exprs ++ [f.2]
  | .ret value | .pred value => [value]
  | .retTuple values | .transfers values => values
  | .retLens path value => path.flatMap PathSegment.exprs ++ [value]
  | .effectsUnmodelable => []

/-- `errCodeIs`. -/
def RouteResult.errCodeIs {α : Type} (r : RouteResult α) (n : Nat) : Prop :=
  match r with
  | .error (.ofNat m) => m = n
  | .ok _ => False

/-- `okAnd`. -/
def RouteResult.okAnd {α : Type} (r : RouteResult α) (p : α → Prop) : Prop :=
  match r with
  | .ok a => p a
  | .error _ => False

/-- What the rendered parts of a statement about `entity` denote.  An expectation reads
    the value of the last call if it mentions it, and the instance it is about if it
    mentions the entity. -/
structure Meaning (W C V : Type) (entity : Entity) where
  value : Option Ty → Expr → Scope W C V → V
  ctxWith : List (String × Expr) → Scope W C V → C
  valueWith : Expr → Scope W C V → C
  block : List (String × Expr) → Scope W C V → W
  install : String → List (String × Expr) → Scope W C V → V × W
  total : RouteCall → Scope W C V → C → W × V
  outcome : RouteCall → Scope W C V → C → RouteResult (W × V)
  field : FieldPath × Expr → String → Scope W C V → Prop
  transfer : Expr → String → Scope W C V → Prop
  assertion : Expectation → String → Option V → Scope W C V → Prop
  emitted : String → List Expr → String → Scope W C V → Prop
  assertion_result : ∀ e, e.readsResult = false → ∀ inst v v' s,
    assertion e inst v s ↔ assertion e inst v' s
  assertion_state : ∀ e, e.exprs.any (readsEntity entity) = false → ∀ inst inst' v s,
    assertion e inst v s ↔ assertion e inst' v s
  transfer_state : ∀ dest, readsEntity entity dest = false → ∀ inst inst' s,
    transfer dest inst s ↔ transfer dest inst' s
  emitted_state : ∀ name args, args.any (readsEntity entity) = false → ∀ inst inst' s,
    emitted name args inst s ↔ emitted name args inst' s

variable {W C V : Type} {entity : Entity}

/-- `render_expect_prop`. -/
def Meaning.holds (M : Meaning W C V entity) (e : Expectation) (inst : String) (v : Option V)
    (s : Scope W C V) : Prop :=
  match e with
  | .state fields => ∀ f ∈ fields, M.field f inst s
  | .transfers dests => ∀ dest ∈ dests, M.transfer dest inst s
  | .effectsUnmodelable => False
  | e => M.assertion e inst v s

/-- The binders of the emitted term. -/
structure Env (W C V : Type) extends Scope W C V where
  ctxCall : C
  results : Nat → Option V
  expects : Nat → Prop

def Env.context (env : Env W C V) : CtxVar → C
  | .ctx => env.ctx
  | .ctxCall => env.ctxCall

/-- The `_result_N` of a view call is bound. -/
def Env.bindResult (env : Env W C V) (result : Option Nat) (r : W × V) : Env W C V :=
  match result with
  | some n => { env with world := r.1, results := Function.update env.results n (some r.2) }
  | none => { env with world := r.1 }

def Assertion.denote (M : Meaning W C V entity) (env : Env W C V) : Assertion → Prop
  | .expect e result => M.holds e "inst" (result.bind env.results) env.toScope
  | .emitted name args => M.emitted name args "inst" env.toScope

/-- The emitted proposition, with `&&` as conjunction. -/
def Goal.denote (M : Meaning W C V entity) : Goal → Env W C V → Prop
  | .conj names, env => ∀ n ∈ names, env.expects n
  | .letValue name ty value body, env =>
      body.denote M { env with lets := (name, M.value ty value env.toScope) :: env.lets }
  | .letCtx fields body, env => body.denote M { env with ctx := M.ctxWith fields env.toScope }
  | .letBlock fields body, env => body.denote M { env with world := M.block fields env.toScope }
  | .letPeer peer inst initState body, env =>
      let r := M.install peer initState env.toScope
      body.denote M { env with lets := (inst, r.1) :: env.lets, world := r.2 }
  | .letCtxCall value body, env =>
      body.denote M { env with ctxCall := M.valueWith value env.toScope }
  | .letWorld call cv body, env =>
      body.denote M (env.bindResult none (M.total call env.toScope (env.context cv)))
  | .letView call cv result body, env =>
      body.denote M (env.bindResult (some result) (M.total call env.toScope (env.context cv)))
  | .letExpect name prop body, env =>
      body.denote M { env with expects := Function.update env.expects name (prop.denote M env) }
  | .errCodeIs call cv code, env =>
      RouteResult.errCodeIs (M.outcome call env.toScope (env.context cv)) code
  | .errCodeIsAnd call cv code rest, env =>
      RouteResult.errCodeIs (M.outcome call env.toScope (env.context cv)) code ∧ rest.denote M env
  | .okAnd call cv result body, env =>
      RouteResult.okAnd (M.outcome call env.toScope (env.context cv)) fun r =>
        body.denote M (env.bindResult result r)
  | .matchThrow call cv _ code, env =>
      match M.outcome call env.toScope (env.context cv) with
      | .error (.ofNat n) => n = code
      | .ok _ => False
  | .matchThrowAnd call cv _ code rest, env =>
      match M.outcome call env.toScope (env.context cv) with
      | .error (.ofNat n) => n = code ∧ rest.denote M env
      | .ok _ => False
  | .matchOk call cv result body, env =>
      match M.outcome call env.toScope (env.context cv) with
      | .error _ => False
      | .ok r => body.denote M (env.bindResult result r)

end CambrianLang.Spec
