/-
  **The body of a generated Foundry test** (`gen_test_fn`, `gen_fuzz_fn`,
  `codegen/evm_test_codegen.rs`).

  The two step loops are one here, and they differ where the source's do.  What is
  emitted in front of the loop (the seeded members, and in a fuzz test its bounds, its
  assumptions and the `let`s these name) is left out; comments are no statements.
  `gen_expr_test` is a parameter, for the two places that compare rendered text.
-/
import CambrianLang.Spec.Statements

namespace CambrianLang.Forge

open Ast Solidity Spec

/-! ### Statements -/

/-- `enum PostCallAssert`. -/
inductive PostCallAssert where
  | state (fields : List (FieldPath × Expr))
  | throw (code : Nat)
  | ret (value : Expr)
  | retTuple (values : List Expr)
  | retLens (path : FieldPath) (value : Expr)
  | effects (elements : List TestEffectElement)
  | pred (cond : Expr)

/-- An emitted statement; `ret` is the number of a `_ret_N`. -/
inductive Stmt where
  | context (ns : String) (fields : List (String × Expr))
  | startPrank (sender : Expr)
  | letBinding (name : String) (ty : Option Ty) (value : Expr)
  | deployPeer (entity binding : String) (args : List Expr) (initState : List (String × Expr))
  | mappingPins
  | expectRevert (code : Nat)
  | balanceBefore (dest : Expr)
  | call (var route : String) (args : List Expr) (value : Option Expr) (ret : Option Nat)
  /-- `var = E(address(_factory.deployE(..)));` -/
  | redeploy (entity var : String) (args : List Expr)
  | assertReturn (a : PostCallAssert) (ret : Nat)
  | assertState (fields : List (FieldPath × Expr)) (var : String)
  | assertPred (cond : Expr) (var : String) (ret : Nat)
  | assertBalance (dest : Expr)
  | expectEmit (eventName : String) (args : List Expr)

/-! ### Assertions after a call -/

def asAssertion : TestStep → Option PostCallAssert
  | .expectState fields => some (.state fields)
  | .expectThrow code => some (.throw code)
  | .expectReturn value => some (.ret value)
  | .expectReturnTuple values => some (.retTuple values)
  | .expectReturnLens path value => some (.retLens path value)
  | .expectEffects elements => some (.effects elements)
  | .expectPred cond => some (.pred cond)
  | _ => none

/-- `collect_post_call_assertions`. -/
def collectPostCallAssertions : List TestStep → List PostCallAssert
  | [] => []
  | step :: rest =>
      match asAssertion step with
      | some a => a :: collectPostCallAssertions rest
      | none => []

theorem length_collect_le (body : List TestStep) :
    (collectPostCallAssertions body).length ≤ body.length := by
  induction body with
  | nil => exact Nat.le_refl 0
  | cons step rest ih =>
    rw [collectPostCallAssertions]
    cases asAssertion step with
    | none => exact Nat.zero_le _
    | some a => exact Nat.succ_le_succ ih

def PostCallAssert.needsReturn : PostCallAssert → Bool
  | .ret _ | .retTuple _ | .retLens _ _ => true
  | .pred cond => exprMentionsIdent cond expectResultName
  | .state _ | .throw _ | .effects _ => false

/-- `post_call_needs_return`. -/
def postCallNeedsReturn (asserts : List PostCallAssert) : Bool := asserts.any (·.needsReturn)

def PostCallAssert.code : PostCallAssert → Option Nat
  | .throw code => some code
  | _ => none

/-- The destination of a transfer. -/
def sendDest : TestEffectElement → Option Expr
  | .effect (.send _ _ dest _) => some dest
  | _ => none

def PostCallAssert.dests : PostCallAssert → List Expr
  | .effects elements => elements.filterMap sendDest
  | _ => []

/-! ### The emitted function -/

/-- `CtorHarness`: the constructor call that `setUp` makes for all tests. -/
structure CtorHarness where
  initArgs : String
  prankSender : Option String

/-- The function that is emitted. -/
structure Target where
  entities : List Entity
  entity : Entity
  varName : String
  fuzz : Bool
  initState : List (String × Expr)
  /-- `lets_to_hoist_before_assumes`, in a fuzz test. -/
  hoistedLets : List String
  deterministic : Bool
  ctorHarness : Option CtorHarness
  /-- `gen_expr_test`, `"0"` where it has nothing. -/
  render : Expr → String
  /-- `sol_sanitize_ident`. -/
  sanitize : String → String

/-- What the steps have bound; the newest peer and the newest `let` are first. -/
structure Scope where
  peers : List (String × Entity × String)
  subject : String
  lets : List (String × String)
  pinsEmitted : Bool

/-- The locals of the loop. -/
structure Gen extends Scope where
  pendingMsgValue : Option Expr
  retCnt : Nat

variable (T : Target)

def peerVar (binding : String) : String := "_peer_" ++ T.sanitize binding

/-- `resolve_test_expr`. -/
def resolveTestExpr (lets : List (String × String)) (e : Expr) : String :=
  match e with
  | .ident name => (lets.lookup name).getD (T.render e)
  | _ => T.render e

def senderField (fields : List (String × Expr)) : Option Expr :=
  (fields.find? (·.1 == "sender")).map (·.2)

/-- `msg_ctor_pair_matches`: the sender is the first argument. -/
def msgCtorPairMatches (fields : List (String × Expr)) (args : List Expr)
    (lets : List (String × String)) : Bool :=
  match senderField fields, args with
  | some sender, arg :: _ => resolveTestExpr T lets sender == resolveTestExpr T lets arg
  | _, _ => false

/-- `should_skip_hoisted_msg`. -/
def shouldSkipHoistedMsg (ns : String) (fields : List (String × Expr))
    (lets : List (String × String)) : Bool :=
  ns == "msg" && (T.ctorHarness.bind (·.prankSender)).any fun expected =>
    fields.any fun f => f.1 == "sender" && resolveTestExpr T lets f.2 == expected

/-- What follows a hoisted constructor call. -/
def afterHoisted (lets : List (String × String)) : List TestStep → List TestStep
  | .setContext ns fields :: rest =>
      if shouldSkipHoistedMsg T ns fields lets then rest else .setContext ns fields :: rest
  | rest => rest

theorem length_afterHoisted_le (lets : List (String × String)) (rest : List TestStep) :
    (afterHoisted T lets rest).length ≤ rest.length := by
  unfold afterHoisted
  split
  · split
    · exact Nat.le_succ _
    · exact Nat.le_refl _
  · exact Nat.le_refl _

def isUnitType : Ty → Bool
  | .simple name => name == "()"
  | _ => false

def routeReturns (callee : Entity) (route : String) : Bool :=
  (callee.routes.find? (·.name == route)).any fun r => r.returnType.any fun ty => !isUnitType ty

def deployArgs (callee : Entity) (args : List Expr) : List Expr :=
  if hasNonIdentityInitParams callee then args else []

/-- `gen_call`: the statements and the counter. -/
def genCall (callee : Entity) (route : String) (args : List Expr) (var : String)
    (needsReturn ctorHoisted : Bool) (value : Option Expr) (retCnt : Nat) : List Stmt × Nat :=
  if isInitRouteCall callee route then
    if ctorHoisted && hasNonIdentityInitParams callee then ([], retCnt)
    else ([.redeploy callee.name var (deployArgs callee args)], retCnt)
  else if needsReturn && routeReturns callee route then
    ([.call var route args value (some (retCnt + 1))], retCnt + 1)
  else ([.call var route args value none], retCnt)

/-- The checks emitted behind a call. -/
def genAssertion (subject : String) (retCnt : Nat) : PostCallAssert → List Stmt
  | .state fields => [.assertState fields subject]
  | .throw _ => []
  | .effects elements => (elements.filterMap sendDest).map .assertBalance
  | .pred cond => [.assertPred cond subject retCnt]
  | a => [.assertReturn a retCnt]

/-- The constructor call behind a `msg` step is made in the step's place. -/
def foldsInit (paired : Bool) (args : List Expr) : Bool :=
  T.deterministic && if T.fuzz then !args.isEmpty else paired

/-- A `msg` step with the constructor call behind it, which are emitted as one: nothing if
    `setUp` has made the call, else the call and then the prank. -/
def genInitPair (g : Scope) (ns : String) (fields : List (String × Expr)) :
    List TestStep → Option (List Stmt × List TestStep)
  | .call _ route args :: rest =>
      if ns == "msg" && isInitRouteCall T.entity route then
        let paired := msgCtorPairMatches T fields args g.lets
        if paired && T.ctorHarness.isSome then some ([], rest)
        else if foldsInit T paired args then
          some
            (match senderField fields with
              | some sender =>
                  (genCall T.entity route args T.varName false false none 0).1 ++
                    [.startPrank sender]
              | none => [], rest)
        else none
      else none
  | _ => none

theorem length_genInitPair {g : Scope} {ns : String} {fields : List (String × Expr)}
    {rest rest' : List TestStep} {stmts : List Stmt}
    (h : genInitPair T g ns fields rest = some (stmts, rest')) : rest'.length < rest.length := by
  unfold genInitPair at h
  split at h
  · dsimp only at h
    split at h
    · split at h
      · cases h
        exact Nat.lt_succ_self _
      · split at h
        · cases h
          exact Nat.lt_succ_self _
        · cases h
    · cases h
  · cases h

def Scope.letBound (g : Scope) (name : String) (value : Expr) : Scope :=
  { g with lets := (name, T.render value) :: g.lets }

/-- The mapping seeds are written before the first call of a test. -/
def pinsDue (g : Scope) : Bool := !T.fuzz && !g.pinsEmitted && !T.initState.isEmpty

def Scope.pinned (g : Scope) : Scope := { g with pinsEmitted := g.pinsEmitted || pinsDue T g }

def genPins (g : Scope) : List Stmt := if pinsDue T g then [.mappingPins] else []

/-- The callee and the variable of a call. -/
def callee (g : Scope) (target : Option String) : Entity × String :=
  match target with
  | some binding => ((g.peers.find? (·.1 == binding)).map (·.2)).getD (T.entity, T.varName)
  | none => (T.entity, g.subject)

def Scope.deployed (g : Scope) (binding : String) (peer : Entity) : Scope :=
  { g with
    peers := (binding, peer, peerVar T binding) :: g.peers
    subject := if peer.name == T.entity.name then peerVar T binding else g.subject }

def hoistedCall (route : String) : Bool := isInitRouteCall T.entity route && T.ctorHarness.isSome

/-- The statements before a call and the call, with the counter. -/
def genCallStep (g : Gen) (target : Option String) (route : String) (args : List Expr)
    (asserts : List PostCallAssert) : List Stmt × Nat :=
  let (entity, var) := callee T g.toScope target
  let (stmts, retCnt) := genCall entity route args var (postCallNeedsReturn asserts)
    T.ctorHarness.isSome g.pendingMsgValue g.retCnt
  ((asserts.findSome? (·.code)).toList.map .expectRevert ++
    (asserts.flatMap (·.dests)).map .balanceBefore ++ stmts, retCnt)

/-- The loop. -/
def genSteps (g : Gen) (body : List TestStep) : List Stmt :=
  match body with
  | [] => []
  | .setContext ns fields :: rest =>
      match h : genInitPair T g.toScope ns fields rest with
      | some (stmts, rest') =>
          have := length_genInitPair T h
          stmts ++ genSteps g rest'
      | none =>
          .context ns fields ::
            genSteps { g with
              pendingMsgValue := if ns == "msg" then (msgValue fields).or g.pendingMsgValue
                else g.pendingMsgValue } rest
  | .letS name ty value :: rest =>
      if T.fuzz && T.hoistedLets.contains name then genSteps g rest
      else .letBinding name ty value :: genSteps { g with toScope := g.letBound T name value } rest
  | .deployPeer binding peer args initState :: rest =>
      match T.entities.find? (·.name == peer) with
      | some peerEntity =>
          .deployPeer peer binding args initState ::
            genSteps { g with toScope := g.deployed T binding peerEntity } rest
      | none => genSteps g rest
  | .call target route args :: rest =>
      genPins T g.toScope ++
        if hoistedCall T route then
          have := length_afterHoisted_le T g.lets rest
          genSteps { g with toScope := g.pinned T } (afterHoisted T g.lets rest)
        else
          let asserts := collectPostCallAssertions rest
          let (stmts, retCnt) := genCallStep T g target route args asserts
          have := length_collect_le rest
          stmts ++ asserts.flatMap (genAssertion g.subject retCnt) ++
            genSteps { toScope := g.pinned T, pendingMsgValue := none, retCnt := retCnt }
              (rest.drop asserts.length)
  | .expectEmit eventName args :: rest =>
      if T.fuzz then genSteps g rest else .expectEmit eventName args :: genSteps g rest
  | .expectState fields :: rest => .assertState fields g.subject :: genSteps g rest
  | .expectThrow _ :: rest | .expectReturn _ :: rest | .expectReturnTuple _ :: rest
  | .expectReturnLens _ _ :: rest | .expectPred _ :: rest | .expectEffects _ :: rest
  | .setRegistry _ _ _ _ :: rest | .assume _ :: rest | .bound _ _ _ _ :: rest
  | .skipIf _ :: rest | .advanceTime _ :: rest => genSteps g rest
termination_by body.length
decreasing_by
  all_goals simp only [List.length_cons, List.length_drop] at *
  all_goals omega

end CambrianLang.Forge
