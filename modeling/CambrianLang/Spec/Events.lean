/-
  **The events of a test or property** (`codegen/lean/evm/spec_steps.rs`,
  `evm/test.rs`, `evm/property.rs`).

  The Lean back end lowers the steps of a body to a list of events before it writes a
  statement.  Whether a call may fail is decided by `route_fail_mode`, which is a
  parameter here.
-/
import CambrianLang.Ast.Tests
import CambrianLang.Solidity.RouteEmission
import CambrianLang.Validate.EvmRules

namespace CambrianLang.Spec

open Ast Solidity Validate

/-! ### Events -/

structure RouteCall where
  routeName : String
  args : List Expr
  isView : Bool
  calleeEntity : Option String
  calleeInst : Option String

/-- The success expectations, which are flushed as binders. -/
inductive Expectation where
  | state (fields : List (FieldPath × Expr))
  | ret (value : Expr)
  | retTuple (values : List Expr)
  | retLens (path : FieldPath) (value : Expr)
  | pred (cond : Expr)
  | transfers (dests : List Expr)
  | effectsUnmodelable

/-- `SpecEvent`. -/
inductive SpecEvent where
  | letE (name : String) (ty : Option Ty) (value : Expr)
  | setMsgCtx (fields : List (String × Expr))
  | setSysCtx (fields : List (String × Expr))
  | rawCall (call : RouteCall)
  | wrappedCall (call : RouteCall)
  | installPeer (peerEntity instVar : String) (args : List Expr)
      (initState : List (String × Expr))
  | expectEmit (eventName : String) (args : List Expr)
  | expect (e : Expectation)
  | expectThrow (code : Nat)
  | comment (text : String)

/-! ### Names -/

/-- `is_lean_reserved_keyword`. -/
def leanReservedKeywords : List String :=
  ["end", "namespace", "section", "import", "open", "export", "public", "private", "protected",
    "variable", "def", "theorem", "example", "axiom", "inductive", "structure", "class",
    "instance", "abbrev", "opaque", "mutual", "where", "let", "in", "if", "then", "else", "match",
    "with", "fun", "do", "return", "for", "by", "have", "show", "sorry", "admit", "partial",
    "unsafe", "meta", "noncomputable", "infix", "postfix", "prefix", "notation", "macro", "elab",
    "syntax", "derive", "aux", "builtin"]

/-- `lean_safe_ident`. -/
def leanSafeIdent (name : String) : String :=
  if ["s", "w", "inst", "ctx"].contains name then name ++ "_p"
  else if leanReservedKeywords.contains name then name ++ "_"
  else name

/-- `alloc_peer_inst`. -/
def allocPeerInst (binding : String) : String := leanSafeIdent binding ++ "_inst"

/-- `expr_mentions_ident`. -/
def exprMentionsIdent (e : Expr) (name : String) : Bool :=
  (walkExprSubtree.walk e).any fun
    | .ident n => n == name
    | _ => false

/-- `EXPECT_RESULT_NAME`. -/
def expectResultName : String := "result"

/-! ### Lowering -/

/-- `is_init_route_call`. -/
def isInitRouteCall (entity : Entity) (route : String) : Bool :=
  route == "constructor" || (constructorRoute entity).any (·.name == route)

/-- `route_is_view`. -/
def routeIsView (route : Route) : Bool := route.returnType.isSome

/-- The declaration whose body is lowered. -/
structure Subject where
  entities : List Contract
  entity : Entity
  failMode : Entity → Route → Bool
  /-- `test '..'` or `property '..'` -/
  label : String
  isTest : Bool

variable (S : Subject)

/-- A call event, wrapped where the route may fail. -/
def callEvent (owner : Entity) (route : Route) (args : List Expr)
    (calleeEntity calleeInst : Option String) : SpecEvent :=
  let call := ⟨route.name, args, routeIsView route, calleeEntity, calleeInst⟩
  if S.failMode owner route then .wrappedCall call else .rawCall call

/-- `deploy_positional_init_event`. -/
def deployPositionalInitEvent (peer : Entity) (instVar : String) (args : List Expr) :
    Option SpecEvent :=
  if args.isEmpty then none
  else (constructorRoute peer).map fun route =>
    callEvent S peer route args (some peer.name) (some instVar)

/-- `dropped_step_comment`. -/
def droppedStepComment (kind detail : String) : SpecEvent :=
  .comment ("WARNING: `" ++ kind ++ "` dropped — " ++ detail)

/-- `stale_result_comment`. -/
def staleResultComment (kind : String) : SpecEvent :=
  .comment ("WARNING: `" ++ kind ++ "` dropped with the cross-contract call it asserts on " ++
    "— `_result` still holds the previous call's value")

/-- The destination of a raw transfer `~> dest`. -/
def transferDest : TestEffectElement → Option Expr
  | .effect (.send none _ dest _) => some dest
  | _ => none

/-- An effect that is no raw transfer. -/
def isUnmodelable : TestEffectElement → Bool
  | .wildcard => false
  | el => (transferDest el).isNone

/-- `lower_expect_effects`: the events and the warnings. -/
def lowerExpectEffects (elements : List TestEffectElement) (label : String) :
    List SpecEvent × List String :=
  let dests := elements.filterMap transferDest
  let unmodelable := (elements.filter isUnmodelable).length
  if elements.isEmpty then
    ([.comment "expect effects []  ⇒  trivially holds (no effects asserted)"], [])
  else if dests.isEmpty then
    ([.expect .effectsUnmodelable],
      [label ++ ": `expect effects [...]` has no Lean-modelable raw transfers — refusing " ++
        "vacuous True (goal := False)"])
  else
    ([.expect (.transfers dests)],
      if unmodelable = 0 then [] else
        [label ++ ": " ++ toString unmodelable ++ " non-transfer effect(s) in `expect effects` " ++
          "not yet modelled on Lean; transfer props still emitted"])

/-- The locals of `lower_steps`; the newest binding of a peer is first. -/
structure LowerState where
  events : List SpecEvent
  warnings : List String
  resultIsStale : Bool
  peerBindings : List (String × String × String)
  deployInitApplied : List String
  activeSutInst : Option String

def LowerState.push (st : LowerState) (event : SpecEvent) : LowerState :=
  { st with events := st.events ++ [event] }

def LowerState.warn (st : LowerState) (warning : String) : LowerState :=
  { st with warnings := st.warnings ++ [warning] }

/-- A return expectation, dropped when the call it is about was. -/
def LowerState.pushFresh (st : LowerState) (kind : String) (event : SpecEvent) : LowerState :=
  st.push (if st.resultIsStale then staleResultComment kind else event)

def findEntity (name : String) : Option Contract := S.entities.find? (·.name == name)

/-- `DeployPeer`. -/
def lowerDeploy (st : LowerState) (binding peer : String) (args : List Expr)
    (initState : List (String × Expr)) : LowerState :=
  let inst := allocPeerInst binding
  let st := { st with peerBindings := (binding, peer, inst) :: st.peerBindings }
  let st := st.push (.installPeer peer inst args initState)
  let st :=
    match (findEntity S peer).bind fun e => deployPositionalInitEvent S e.toEntity inst args with
    | some event =>
        { st.push event with deployInitApplied := binding :: st.deployInitApplied }
    | none => st
  if peer == S.entity.name then { st with activeSutInst := some inst } else st

/-- `Call` on a deployed peer. -/
def lowerPeerCall (st : LowerState) (binding route : String) (args : List Expr) : LowerState :=
  match st.peerBindings.find? (·.1 == binding) with
  | none =>
      { st.push (droppedStepComment ("call " ++ binding ++ "." ++ route)
          "undeclared deploy binding") with resultIsStale := true }
  | some (_, peer, inst) =>
      let peerEnt := findEntity S peer
      if peerEnt.any fun e => st.deployInitApplied.contains binding &&
          isInitRouteCall e.toEntity route then
        { st.push (.comment ("call " ++ binding ++ "." ++ route ++
            " folded into deploy positional init")) with resultIsStale := false }
      else
        match peerEnt.bind fun e => (e.routes.find? (·.name == route)).map (e, ·) with
        | none =>
            st.push (.comment ("WARNING: call to unknown route '" ++ route ++ "' on peer '" ++
              peer ++ "' (T2)"))
        | some (e, r) =>
            { st.push (callEvent S e.toEntity r args (some peer) (some inst)) with
              resultIsStale := false }

/-- `Call` on the entity under test. -/
def lowerOwnCall (st : LowerState) (route : String) (args : List Expr) : LowerState :=
  match S.entity.routes.find? (·.name == route) with
  | none => st.push (.comment ("WARNING: call to unknown route '" ++ route ++ "' (T2)"))
  | some r =>
      { st.push (callEvent S S.entity r args none st.activeSutInst) with resultIsStale := false }

def notAllowedComment : SpecEvent :=
  .comment (if S.isTest then
      "TODO: assume/bound/skipIf/advanceTime not allowed in test (T11/T12/T15/T16)"
    else "TODO: bound/skipIf/advanceTime not allowed in property body")

/-- One step of `lower_steps`. -/
def lowerStep (st : LowerState) : TestStep → LowerState
  | .letS name ty value => st.push (.letE name ty value)
  | .setContext ns fields =>
      if ns == "msg" then st.push (.setMsgCtx fields)
      else if ns == "sys" then st.push (.setSysCtx fields)
      else (st.push (.comment ("WARNING: unknown context namespace '" ++ ns ++
          "' (T8) — skipped"))).warn
        (S.label ++ ": unknown context namespace '" ++ ns ++ "' (T8)")
  | .setRegistry entity _ _ _ =>
      (st.push (.comment ("TODO: SetRegistry for '" ++ entity ++
          "' skipped on Lean target (TVM-only, mirrors E10)"))).warn
        (S.label ++ ": SetRegistry for '" ++ entity ++ "' skipped on Lean target")
  | .deployPeer binding peer args initState => lowerDeploy S st binding peer args initState
  | .call (some binding) route args => lowerPeerCall S st binding route args
  | .call none route args => lowerOwnCall S st route args
  | .expectState fields => st.push (.expect (.state fields))
  | .expectThrow code => st.pushFresh "expect throw" (.expectThrow code)
  | .expectReturn value => st.pushFresh "expect return" (.expect (.ret value))
  | .expectReturnTuple values =>
      st.pushFresh "expect return tuple" (.expect (.retTuple values))
  | .expectReturnLens path value =>
      st.pushFresh "expect return lens" (.expect (.retLens path value))
  | .expectPred cond =>
      if exprMentionsIdent cond expectResultName then
        st.pushFresh "expect" (.expect (.pred cond))
      else st.push (.expect (.pred cond))
  | .expectEffects elements =>
      let (events, warnings) := lowerExpectEffects elements S.label
      { st with events := st.events ++ events, warnings := st.warnings ++ warnings }
  | .expectEmit eventName args => st.push (.expectEmit eventName args)
  | .assume _ => if S.isTest then st.push (notAllowedComment S) else st
  | .bound _ _ _ _ | .skipIf _ | .advanceTime _ => st.push (notAllowedComment S)

/-- `lower_steps`: the state after the last step, with its events and warnings. -/
def lowerSteps (body : List TestStep) : LowerState :=
  body.foldl (lowerStep S) ⟨[], [], false, [], [], none⟩

end CambrianLang.Spec
