/-
  **With what error a route fails when its guards do** (`gen_from_checks`,
  `gen_where_checks` in `codegen/solidity/evm/route.rs`; `gen_from_checks`,
  `emit_pre_guard` in `codegen/lean/core/route_local.rs`; `wrap_calling_local`,
  `emit_phased_route_entry`, `flat_pre_conjuncts` in `codegen/lean/route.rs`).

  Both functions are lists of parts.  A Solidity guard reverts with an error, or with a
  panic when a condition, a sender address or an error argument traps.  A Lean guard is
  a total predicate and throws the code of its clause.  What stands between the guards
  is the same on both sides, except that a Lean phase that returns is followed by the
  next one.
-/
import CambrianLang.Analysis.FailSurface
import CambrianLang.Guards.GuardedRoutes
import CambrianLang.Lib.FirstFailure

namespace CambrianLang.Guards

open Ast Analysis Solidity StraightLine
open Validate FirstFailure Traversal

/-! ### The annotations of `from` clauses (V60) -/

inductive FromThrowKey where
  | default
  | numeric (code : Nat)
  | named (name : String)
deriving DecidableEq

/-- `from_throw_key`. -/
def fromThrowKey (c : FromClause) : FromThrowKey :=
  match c.errorName with
  | some name => .named name
  | none =>
      match c.errorCode with
      | some code => .numeric code
      | none => .default

/-- The annotations of the clauses are all that of the first. -/
def uniformThrow (cs : List FromClause) : Bool :=
  match cs with
  | [] => true
  | c :: rest => rest.all fun d => decide (fromThrowKey d = fromThrowKey c)

/-- `check_from_clause_uniform_throw`. -/
def checkFromClauseUniformThrow (entity : Entity) : List Diagnostic :=
  (entity.routes.filter fun r => !uniformThrow r.fromClauses).map fun r =>
    .error "V60" ("entity '" ++ entity.name ++ "' route '" ++ r.name ++
      "': multiple `from` clauses must share the same `: throw` annotation (found mixed throw codes)")

/-! ### Errors -/

/-- `cambrian_function_id`: FNV-1a over the bytes of a name. -/
def cambrianFunctionId (name : String) : Nat :=
  (name.toUTF8.toList.foldl (fun h b => (h ^^^ b.toUInt32) * 0x01000193) (0x811c9dc5 : UInt32)).toNat

/-- What an emitted function reverts with. -/
inductive Revert where
  | custom (name : String)
  | thrown (code : Nat)
  | fromFailed
  | panic (code : Nat)
deriving DecidableEq

/-- The code that stands for an error in Lean. -/
def Revert.code : Revert → Nat
  | .custom name => cambrianFunctionId name
  | .thrown code => code
  | .fromFailed => 1
  | .panic code => code

/-- The name all clauses are annotated with, and the arguments of the first. -/
def sharedName (cs : List FromClause) : Option (String × List Expr) :=
  let names := cs.filterMap (·.errorName)
  if names.length = cs.length ∧ names.IsChain (· = ·) then
    cs.head?.bind fun c => c.errorName.map fun name => (name, c.errorArgs)
  else none

def sharedCode (cs : List FromClause) : Option Nat :=
  let codes := cs.filterMap (·.errorCode)
  if codes.length = cs.length ∧ codes.IsChain (· = ·) then codes.head? else none

/-- What a failed sender check reverts with, and the arguments evaluated for it. -/
def fromRevert (cs : List FromClause) : Revert × List Expr :=
  match sharedName cs with
  | some (name, args) => (.custom name, args)
  | none =>
      match sharedCode cs with
      | some code => (.thrown code, [])
      | none => (.fromFailed, [])

def whereRevert (w : WhereClause) : Revert × List Expr :=
  match w.errorName with
  | some name => (.custom name, w.errorArgs)
  | none => (.thrown w.errorCode, [])

/-- The code of `gen_from_checks`: that of the first clause that has one. -/
def fromThrowCode (cs : List FromClause) : Nat :=
  (cs.findSome? fun c => (c.errorName.map cambrianFunctionId).or c.errorCode).getD 1

/-- `where_clause_throw_code`. -/
def whereClauseThrowCode (w : WhereClause) : Nat :=
  match w.errorName with
  | some name => cambrianFunctionId name
  | none => w.errorCode

/-! ### What conditions and parts do -/

def isGuard : Part → Bool
  | .fromCheck _ | .whereCheck _ _ => true
  | _ => false

def returnWalker : Walker RouteAction Bool where
  own
    | .ret _ => [true]
    | _ => []
  visited := surfaceNested
  rank := RouteAction.rank
  rank_lt := rank_surfaceNested_lt

/-- `action_can_return`. -/
def actionCanReturn (a : RouteAction) : Bool := !(returnWalker.walk a).isEmpty

/-- A part that can end the function without a failure. -/
def CanEnd : Part → Prop
  | .stmt _ a => actionCanReturn a = true
  | _ => False

/-- What conditions, sender checks and the parts between the guards do in a state of
    storage, chain, call and locals.  `CanTrap` are the expressions whose evaluation in
    Solidity can panic. -/
structure Behaviour (CanTrap : Expr → Prop) (S : Type) where
  truth : Expr → S → Bool
  /-- the sender is the one a clause names -/
  admits : FromClause → S → Bool
  panics : Expr → S → Option Nat
  panics_only : ∀ e s, panics e s ≠ none → CanTrap e
  perform : Part → S → Option S
  /-- the same for Lean, which goes on after a phase that returns -/
  proceed : Part → S → Option S
  proceed_of_perform : ∀ p s m, perform p s = some m → proceed p s = some m
  perform_of_proceed : ∀ p s m, ¬ CanEnd p → proceed p s = some m → perform p s = some m

namespace Behaviour

variable {CanTrap : Expr → Prop} {S : Type} (B : Behaviour CanTrap S)

def firstPanic (es : List Expr) (s : S) : Option Nat := es.findSome? (B.panics · s)

/-- The arguments of an error are evaluated before it is raised. -/
def raise (r : Revert × List Expr) (s : S) : Revert :=
  match B.firstPanic r.2 s with
  | some code => .panic code
  | none => r.1

/-- The disjunction of the sender checks, from left to right. -/
def senderAdmitted : List FromClause → S → Except Nat Bool
  | [], _ => .ok false
  | c :: cs, s =>
      match B.firstPanic c.args s with
      | some code => .error code
      | none => if B.admits c s then .ok true else senderAdmitted cs s

/-- What a part of the Solidity function reverts with as a guard. -/
def evmFails : Part → S → Option Revert
  | .fromCheck cs, s =>
      match B.senderAdmitted cs s with
      | .error code => some (.panic code)
      | .ok true => none
      | .ok false => some (B.raise (fromRevert cs) s)
  | .whereCheck _ w, s =>
      match B.panics w.condition s with
      | some code => some (.panic code)
      | none => if B.truth w.condition s then none else some (B.raise (whereRevert w) s)
  | _, _ => none

def evmNext (p : Part) (s : S) : Option S := if isGuard p then some s else B.perform p s

/-- What a part of the Lean function throws as a guard. -/
def leanFails : Part → S → Option Nat
  | .fromCheck cs, s => if cs.any (B.admits · s) then none else some (fromThrowCode cs)
  | .whereCheck _ w, s => if B.truth w.condition s then none else some (whereClauseThrowCode w)
  | _, _ => none

def leanNext (p : Part) (s : S) : Option S := if isGuard p then some s else B.proceed p s

end Behaviour

/-! ### The Lean function -/

section LeanRoute

variable (entity : Entity) (route : Route)

def worldWheres : List WhereClause :=
  route.whereClauses.filter fun w => exprNeedsWorld entity w.condition

def localWheres (clauses : List WhereClause) : List WhereClause :=
  clauses.filter fun w => !exprNeedsWorld entity w.condition

/-- The guards of a route without phases.  Without sends, those that read the world stand on
    the wrapper (`wrap_calling_local`) and the others in the local route. -/
def unphasedGuards : List Part :=
  if routeHasUnphasedSends route then genFromChecks route ++ genWhereChecks none route.whereClauses
  else
    genWhereChecks none (worldWheres entity route) ++
      (genFromChecks route ++ genWhereChecks none (localWheres entity route.whereClauses))

/-- What `lower_actions` keeps of a body that can fail. -/
def uptoReturn : List RouteAction → List RouteAction
  | [] => []
  | a :: as =>
      match a with
      | .ret _ | .throw _ | .throwCustom .. => [a]
      | _ => a :: uptoReturn as

def unphasedWork (actions : List RouteAction) : List Part :=
  genUpdates entity route none ++
    (if routeHasUnphasedSends route then actions else uptoReturn actions).map (.stmt none)

/-- A phase: its guards in the entry point, those the phase function repeats, its work. -/
def leanPhase (p : PhaseBlock) : List Part :=
  genWhereChecks (some p.name) p.whereClauses ++
    ((if routePhasedNeedsWorldThread route then []
      else genWhereChecks (some p.name) (localWheres entity p.whereClauses)) ++
      genStage entity route (some p.name) p.actions)

/-- The parts of the Lean route. -/
def leanBody : List Part :=
  match route.body with
  | .unphased actions | .mixed _ actions =>
      unphasedGuards entity route ++ unphasedWork entity route actions
  | .phased phases =>
      genFromChecks route ++ (genWhereChecks none route.whereClauses ++
        phases.flatMap (leanPhase entity route))

end LeanRoute

/-- **The guards fail alike**: in every state, with the code of the error that the emitted
    function reverts with. -/
def FailAlike (CanTrap : Expr → Prop) (entity : Entity) (route : Route) (form : Form) : Prop :=
  ∀ (S : Type) (B : Behaviour CanTrap S) (s : S),
    (firstFailure B.evmFails B.evmNext (form.emit entity route).body s).map Revert.code =
      firstFailure B.leanFails B.leanNext (leanBody entity route) s

/-! ### The emitted precondition -/

section Precondition

variable (profile : LeanProfile) (pureFns : List PureFn) (entity : Entity) (route : Route)

def isLetOrReturn : RouteAction → Bool
  | .letA .. | .ret _ => true
  | _ => false

/-- `route_pre_is_flat`. -/
def routePreIsFlat : Bool :=
  !routeHasUnphasedSends route &&
    match route.body with
    | .unphased actions => actions.all isLetOrReturn
    | _ => false

/-- `members_can_fail` of `emit_route_pre_lemmas`. -/
def membersCanFail : Bool :=
  routeHasDiv0OrNarrow profile pureFns entity route ||
    (profile.overflowPanic && !profile.natNumerics && routeHasCheckedArith entity route)

/-- `use_flat`. -/
def usesFlatPre : Bool :=
  routePreIsFlat route && !membersCanFail profile pureFns entity route &&
    !(route.fromClauses.isEmpty && route.whereClauses.isEmpty)

variable {CanTrap : Expr → Prop} {S : Type} (B : Behaviour CanTrap S)

/-- The Lean route yields a result. -/
def Succeeds (s : S) : Prop :=
  exec (passing B.leanFails B.leanNext) (leanBody entity route) s ≠ none

/-- `flat_pre_conjuncts`. -/
def FlatPre (s : S) : Prop :=
  (∀ w ∈ worldWheres entity route, B.truth w.condition s = true) ∧
    (route.fromClauses ≠ [] → ∃ c ∈ route.fromClauses, B.admits c s = true) ∧
    ∀ w ∈ localWheres entity route.whereClauses, B.truth w.condition s = true

/-- `<route>.Pre`. -/
def Pre (s : S) : Prop :=
  if usesFlatPre profile pureFns entity route then FlatPre entity route B s
  else Succeeds entity route B s

/-- The parts of the local route that can fail; `CanFail` are the expressions whose lowering
    in a failing route can end in an error. -/
def PartCanFail (CanFail : Expr → Prop) : Part → Prop
  | .updates phase => transformsUseCheckedArith profile pureFns entity route phase = true
  | .stmt _ (.letA _ value) => CanFail value
  -- only a single returned value is bound
  | .stmt _ (.ret [value]) => CanFail value
  | .stmt _ (.ret _) => False
  | _ => True

/-- **The precondition is exact**: it holds where the Lean route succeeds. -/
def PreExact (CanFail : Expr → Prop) : Prop :=
  ∀ (CanTrap : Expr → Prop) (S : Type) (B : Behaviour CanTrap S),
    (∀ p s, B.proceed p s = none → PartCanFail profile pureFns entity route CanFail p) →
    ∀ s, routePreIsFlat route = true →
      (Pre profile pureFns entity route B s ↔ Succeeds entity route B s)

end Precondition

end CambrianLang.Guards
