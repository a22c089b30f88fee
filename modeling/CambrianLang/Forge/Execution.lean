/-
  **Running a Foundry test, and running its steps.**

  `passes` runs the emitted statements with the cheatcodes they use; `clauses` are the
  steps of the body as a script, in which every expectation is about the call it refers
  to.  Both are over a `Chain`, which says what a rendered part does.  A transfer in
  `expect effects` is checked on the balances around the call (`docs/LANGUAGE.md`).
-/
import CambrianLang.Forge.Emission
import CambrianLang.Lib.Scripts

namespace CambrianLang.Forge

open Ast Spec Scripts

/-! ### What the rendered parts do -/

/-- `S` is the chain with the locals of the test, `V` a returned value.  A deployment is
    made by the factory, whoever is pranked. -/
structure Chain (S V : Type) where
  field : String → String × Expr → S → S
  startPrank : Expr → S → S
  letBinding : String → Option Ty → Expr → S → S
  deployPeer : String → String → List Expr → List (String × Expr) → S → S
  mappingPins : S → S
  call : String → String → List Expr → Option Expr → S → Except Nat (S × V)
  redeploy : String → String → List Expr → S → Except Nat S
  returned : PostCallAssert → V → S → Prop
  state : FieldPath × Expr → String → S → Prop
  pred : Expr → String → Option V → S → Prop
  balance : Expr → S → Nat
  deployed : TestEffectElement → S → S → Prop
  emitted : String → List Expr → S → Prop
  /-- What a call that is reverted as expected returns. -/
  blank : V
  pred_result : ∀ cond, exprMentionsIdent cond expectResultName = false → ∀ var v v' s,
    pred cond var v s ↔ pred cond var v' s
  redeploy_startPrank : ∀ entity var args sender s,
    redeploy entity var args (startPrank sender s) =
      (redeploy entity var args s).map (startPrank sender)
  emitted_startPrank : ∀ eventName args sender s,
    emitted eventName args (startPrank sender s) ↔ emitted eventName args s

variable {S V : Type} (C : Chain S V)

/-- `gen_context_block`, where the sender is pranked. -/
def Chain.context (ns : String) (fields : List (String × Expr)) (s : S) : S :=
  fields.foldl (fun s f => if ns == "msg" && f.1 == "sender" then C.startPrank f.2 s
    else C.field ns f s) s

/-! ### The statements -/

/-- The cheatcodes in force and the locals that checks read. -/
structure Machine (S V : Type) where
  chain : S
  armed : Option Nat
  emits : List (S → Prop)
  rets : List (Nat × V)
  before : List (String × Nat)

/-- A call, with the cheatcodes that are about the next one.  A reverted call emits
    nothing. -/
def Machine.perform (m : Machine S V) (outcome : Except Nat (S × V)) (ret : Option Nat)
    (k : Machine S V → Prop) : Prop :=
  match m.armed, outcome with
  | none, .ok (s, v) =>
      (∀ p ∈ m.emits, p s) ∧
        k { m with chain := s, emits := [], rets := (ret.map (·, v)).toList ++ m.rets }
  | some code, .error n =>
      n = code ∧ m.emits = [] ∧
        k { m with armed := none, rets := (ret.map (·, C.blank)).toList ++ m.rets }
  | none, .error _ | some _, .ok _ => False

/-- The function passes.  It does not compile where it reads a local that it lacks or
    declares one twice. -/
def passes (key : Expr → String) : List Stmt → Machine S V → Prop
  | [], m => m.armed = none ∧ m.emits = []
  | .context ns fields :: stmts, m =>
      passes key stmts { m with chain := C.context ns fields m.chain }
  | .startPrank sender :: stmts, m =>
      passes key stmts { m with chain := C.startPrank sender m.chain }
  | .letBinding name ty value :: stmts, m =>
      passes key stmts { m with chain := C.letBinding name ty value m.chain }
  | .deployPeer entity binding args initState :: stmts, m =>
      let s := C.deployPeer entity binding args initState m.chain
      (∀ p ∈ m.emits, p s) ∧ passes key stmts { m with chain := s, emits := [] }
  | .mappingPins :: stmts, m => passes key stmts { m with chain := C.mappingPins m.chain }
  | .expectRevert code :: stmts, m => passes key stmts { m with armed := some code }
  | .balanceBefore dest :: stmts, m =>
      m.before.lookup (key dest) = none ∧
        passes key stmts { m with before := (key dest, C.balance dest m.chain) :: m.before }
  | .call var route args value ret :: stmts, m =>
      m.perform C (C.call var route args value m.chain) ret (passes key stmts)
  | .redeploy entity var args :: stmts, m =>
      m.perform C ((C.redeploy entity var args m.chain).map (·, C.blank)) none (passes key stmts)
  | .assertReturn a ret :: stmts, m =>
      (∃ v, m.rets.lookup ret = some v ∧ C.returned a v m.chain) ∧ passes key stmts m
  | .assertState fields var :: stmts, m =>
      (m.emits = [] ∨ fields = []) ∧ (∀ f ∈ fields, C.state f var m.chain) ∧ passes key stmts m
  | .assertPred cond var ret :: stmts, m =>
      (if exprMentionsIdent cond expectResultName then
        ∃ v, m.rets.lookup ret = some v ∧ C.pred cond var (some v) m.chain
      else C.pred cond var none m.chain) ∧ passes key stmts m
  | .assertBalance dest :: stmts, m =>
      (∃ b, m.before.lookup (key dest) = some b ∧ b ≤ C.balance dest m.chain) ∧ passes key stmts m
  | .expectEmit eventName args :: stmts, m =>
      passes key stmts { m with emits := C.emitted eventName args :: m.emits }

/-! ### The steps -/

/-- The state between the steps, with the chain around the last call. -/
structure Moment (S : Type) where
  chain : S
  value : Option Expr
  before : S
  after : S

abbrev Clause (S V : Type) := Step (Moment S) V Unit Unit

def Moment.update (f : S → S) : Clause S V := .update fun t => { t with chain := f t.chain }

/-- An effect of the last call; a platform effect has no meaning on EVM. -/
def Chain.effect (t : Moment S) : TestEffectElement → Prop
  | .effect (.send _ _ dest _) => C.balance dest t.before ≤ C.balance dest t.after
  | .effect (.deploy entity opts) => C.deployed (.effect (.deploy entity opts)) t.before t.after
  | .effect (.platformEffect _ _) | .wildcard => True

def assertionClause (subject : String) : PostCallAssert → Clause S V
  | .state fields => .expect () fun _ _ t => ∀ f ∈ fields, C.state f subject t.chain
  | .throw code => .refuse code
  | .effects elements => .expect () fun _ _ t => ∀ el ∈ elements, C.effect t el
  | .pred cond => .expect () fun _ v t => C.pred cond subject v t.chain
  | a => .expect () fun _ v t => ∃ x, v = some x ∧ C.returned a x t.chain

variable (T : Target)

/-- What a call does, a constructor call deploying anew. -/
def outcome (g : Scope) (target : Option String) (route : String) (args : List Expr)
    (value : Option Expr) (s : S) : Except Nat (S × Option V) :=
  let (entity, var) := callee T g target
  if isInitRouteCall entity route then
    (C.redeploy entity.name var (deployArgs entity args) s).map (·, none)
  else
    (C.call var route args value s).map fun r =>
      (r.1, if routeReturns entity route then some r.2 else none)

def callClause (g : Scope) (target : Option String) (route : String) (args : List Expr) :
    Clause S V :=
  .call ()
    (fun t => (outcome C T g target route args t.value t.chain).map fun r =>
      (⟨r.1, none, t.chain, r.1⟩, r.2))
    fun t => ⟨t.chain, none, t.chain, t.chain⟩

/-- A constructor call that `setUp` has made. -/
def madeClause : Clause S V := .call () (fun t => .ok ({ t with value := none }, none)) id

def contextClause (ns : String) (fields : List (String × Expr)) : Clause S V :=
  .update fun t =>
    { t with
      chain := C.context ns fields t.chain
      value := if ns == "msg" then (msgValue fields).or t.value else t.value }

/-- The part of a `msg` step at a hoisted call that `setUp` has not brought about. -/
def beyondPrank (fields : List (String × Expr)) : List (String × Expr) :=
  if (T.ctorHarness.bind (·.prankSender)).isSome then fields.filter (·.1 != "sender") else fields

def pinsClauses (g : Scope) : List (Clause S V) :=
  if pinsDue T g then [Moment.update C.mappingPins] else []

/-- The test's own constructor call, which is the one that `setUp` makes. -/
def isMade (made : Bool) (target : Option String) (route : String) : Bool :=
  !made && target.isNone && hoistedCall T route

/-- The `msg` step belongs to the hoisted call behind it. -/
def pairsHoisted (g : Scope) (made : Bool) (ns : String) (fields : List (String × Expr)) :
    List TestStep → Bool
  | .call target route args :: _ =>
      isMade T made target route && ns == "msg" && msgCtorPairMatches T fields args g.lets
  | _ => false

/-- Where a step stands: a constructor call behind its own `msg` step, made by `setUp` or
    not, or the step right behind a call that `setUp` has made. -/
inductive Place where
  | apart
  | paired (made : Bool)
  | behindMade
deriving DecidableEq

/-- The steps of a body; `made` once the test's own constructor call is behind.  The
    mapping seeds are written where the function writes them. -/
def clauses (g : Scope) (made : Bool) (place : Place) : List TestStep → List (Clause S V)
  | [] => []
  | .setContext ns fields :: rest =>
      if place = .behindMade ∧ shouldSkipHoistedMsg T ns fields g.lets then
        contextClause C ns (beyondPrank T fields) :: clauses g made .apart rest
      else
        let hoisted := pairsHoisted T g made ns fields rest
        contextClause C ns (if hoisted then beyondPrank T fields else fields) ::
          clauses g made
            (if (genInitPair T g ns fields rest).isSome then .paired hoisted else .apart) rest
  | .letS name ty value :: rest =>
      if T.fuzz && T.hoistedLets.contains name then clauses g made .apart rest
      else Moment.update (C.letBinding name ty value) ::
        clauses (g.letBound T name value) made .apart rest
  | .deployPeer binding peer args initState :: rest =>
      match T.entities.find? (·.name == peer) with
      | some peerEntity =>
          Moment.update (C.deployPeer peer binding args initState) ::
            clauses (g.deployed T binding peerEntity) made .apart rest
      | none => clauses g made .apart rest
  | .call target route args :: rest =>
      match place with
      | .paired hoisted =>
          (if hoisted then madeClause else callClause C T g target route args) ::
            clauses g true .apart rest
      | _ =>
          pinsClauses C T g ++
            if isMade T made target route then
              madeClause :: clauses (g.pinned T) true .behindMade rest
            else
              callClause C T g target route args :: clauses (g.pinned T) made .apart rest
  | .expectEmit eventName args :: rest =>
      .announce () (fun _ t => C.emitted eventName args t.chain) :: clauses g made .apart rest
  | .expectState fields :: rest =>
      assertionClause C g.subject (.state fields) :: clauses g made .apart rest
  | .expectThrow code :: rest =>
      assertionClause C g.subject (.throw code) :: clauses g made .apart rest
  | .expectReturn value :: rest =>
      assertionClause C g.subject (.ret value) :: clauses g made .apart rest
  | .expectReturnTuple values :: rest =>
      assertionClause C g.subject (.retTuple values) :: clauses g made .apart rest
  | .expectReturnLens path value :: rest =>
      assertionClause C g.subject (.retLens path value) :: clauses g made .apart rest
  | .expectPred cond :: rest =>
      assertionClause C g.subject (.pred cond) :: clauses g made .apart rest
  | .expectEffects elements :: rest =>
      assertionClause C g.subject (.effects elements) :: clauses g made .apart rest
  | .setRegistry _ _ _ _ :: rest | .assume _ :: rest | .bound _ _ _ _ :: rest
  | .skipIf _ :: rest | .advanceTime _ :: rest => clauses g made .apart rest

end CambrianLang.Forge
