/-
  **How the parts of a function are put together** (`codegen/solidity/evm/route.rs`,
  `evm/entity.rs`).

  A route becomes a function, `receive` or `fallback`, the constructor, or
  `initialize`, and each of these is assembled by code of its own.  A function is kept
  as the list of its parts in order; what a part does is left to the modules that use
  the list.
-/
import CambrianLang.Layout.Packing
import CambrianLang.Validate.PhaseConsistency

namespace CambrianLang.Solidity

open Ast Analysis Layout

/-- A part of an emitted function. -/
inductive Part where
  /-- `require(factory_ != address(0), ..); _factory = factory_;` -/
  | setFactory
  /-- `m = m_;` for an identity member -/
  | setIdentity (m : Member)
  /-- the three lines that open `initialize` -/
  | factoryOnce
  /-- the `require` of the `from` clauses -/
  | fromCheck (clauses : List FromClause)
  /-- the `require` of a `where` clause, of the route or of a phase -/
  | whereCheck (phase : Option String) (clause : WhereClause)
  /-- the transforms of the route tagged with the phase, computed and committed -/
  | updates (phase : Option String)
  /-- an action; what leaves the contract reads the state before the phase's commit -/
  | stmt (phase : Option String) (action : RouteAction)
  /-- the default of a member, declared or zero -/
  | setDefault (m : Member)

/-- The phase a part belongs to. -/
def Part.phase : Part → Option String
  | .whereCheck phase _ | .updates phase | .stmt phase _ => phase
  | _ => none

/-- An emitted function: what precedes the code of the route, and that code. -/
structure EmittedFn where
  preamble : List Part
  body : List Part

def EmittedFn.parts (f : EmittedFn) : List Part := f.preamble ++ f.body

/-! ### The pieces -/

/-- `gen_from_checks`, which prints nothing for a route without clauses. -/
def genFromChecks (route : Route) : List Part :=
  if route.fromClauses.isEmpty then [] else [.fromCheck route.fromClauses]

/-- `gen_where_checks`, `gen_phase_where_checks`. -/
def genWhereChecks (phase : Option String) (clauses : List WhereClause) : List Part :=
  clauses.map (.whereCheck phase)

/-- `gen_member_updates_split`, which prints nothing where there is no transform. -/
def genUpdates (entity : Entity) (route : Route) (phase : Option String) : List Part :=
  if (collectTransforms entity route.name phase).isEmpty then [] else [.updates phase]

/-- `gen_updates_with_snapshots` and the actions after it. -/
def genStage (entity : Entity) (route : Route) (phase : Option String)
    (actions : List RouteAction) : List Part :=
  genUpdates entity route phase ++ actions.map (.stmt phase)

/-- `emit_named_phase_block_from_ir`. -/
def emitNamedPhase (entity : Entity) (route : Route) (p : PhaseBlock) : List Part :=
  genWhereChecks (some p.name) p.whereClauses ++ genStage entity route (some p.name) p.actions

/-- `emit_route_body_from_ir`; the trailing phase is that of the bare actions. -/
def emitRouteBody (entity : Entity) (route : Route) : List Part :=
  match route.body with
  | .unphased actions => genStage entity route none actions
  | .phased phases => phases.flatMap (emitNamedPhase entity route)
  | .mixed phases actions =>
      phases.flatMap (emitNamedPhase entity route) ++ genStage entity route none actions

/-- The members whose defaults a constructor assigns. -/
def defaulted (entity : Entity) : List Member :=
  entity.members.filter fun m => !m.isIdentity && !isMappingType m.ty

/-- Those that the init route has no transform for. -/
def defaultedAfter (entity : Entity) (route : Route) : List Member :=
  (defaulted entity).filter fun m => !m.transforms.any (·.routeName == route.name)

def assignIdentity (entity : Entity) : List Part :=
  (entity.members.filter (·.isIdentity)).map .setIdentity

/-! ### Routes -/

/-- `is_emittable_route`. -/
def isEmittableRoute (route : Route) : Bool :=
  !route.isInit && route.name != "constructor" && route.recoverTag.isNone

def isReceiveOrFallback (route : Route) : Bool := route.name == "receive" || route.name == "fallback"

/-- `gen_receive_or_fallback`. -/
def genReceiveOrFallback (entity : Entity) (route : Route) : EmittedFn :=
  ⟨[], genWhereChecks none route.whereClauses ++ emitRouteBody entity route⟩

/-- `gen_route_impl` and `gen_route_impl_ext`, for a route that is neither. -/
def genRouteImpl (entity : Entity) (route : Route) : EmittedFn :=
  ⟨[], genFromChecks route ++ genWhereChecks none route.whereClauses ++ emitRouteBody entity route⟩

/-! ### Construction -/

/-- The unphased updates of an init route and its unphased actions (`init_updates`). -/
def initUpdates (entity : Entity) (route : Route) : List Part :=
  match route.body with
  | .unphased actions => genStage entity route none actions
  | _ => genUpdates entity route none

/-- The phases of an init route, and the bare actions after them. -/
def initPhases (entity : Entity) (route : Route) : List Part :=
  match route.body with
  | .unphased _ => []
  | .phased phases => phases.flatMap fun p => genStage entity route (some p.name) p.actions
  | .mixed phases actions =>
      (phases.flatMap fun p => genStage entity route (some p.name) p.actions) ++
        actions.map (.stmt none)

/-- The init route of a constructor, by position. -/
def constructorRoute (entity : Entity) : Option Route := entity.routes.find? isInitRoute

/-- `find_init_route`: one marked `init` before one named `constructor`. -/
def findInitRoute (entity : Entity) : Option Route :=
  (entity.routes.find? (·.isInit)).or (entity.routes.find? (·.name == "constructor"))

/-- `has_non_identity_init_params`. -/
def hasNonIdentityInitParams (entity : Entity) : Bool :=
  match findInitRoute entity with
  | some route => !route.params.isEmpty
  | none => false

/-- `gen_constructor_impl`. -/
def genConstructorImpl (entity : Entity) : EmittedFn :=
  ⟨assignIdentity entity,
    match constructorRoute entity with
    | none => (defaulted entity).map .setDefault
    | some route =>
        genWhereChecks none route.whereClauses ++ initUpdates entity route ++
          initPhases entity route ++ (defaultedAfter entity route).map .setDefault⟩

/-- `gen_constructor_deterministic`. -/
def genConstructorDeterministic (entity : Entity) : EmittedFn :=
  ⟨.setFactory :: assignIdentity entity,
    match findInitRoute entity with
    | none => (defaulted entity).map .setDefault
    | some route =>
        -- phases and bare actions after them are not emitted here
        if route.params.isEmpty then
          genWhereChecks none route.whereClauses ++ initUpdates entity route ++
            (defaultedAfter entity route).map .setDefault
        else []⟩

/-- `gen_initialize_fn`, emitted where the init route has parameters. -/
def genInitializeFn (entity : Entity) (route : Route) : EmittedFn :=
  ⟨[.factoryOnce],
    genWhereChecks none route.whereClauses ++ initUpdates entity route ++ initPhases entity route ++
      (defaultedAfter entity route).map .setDefault⟩

/-! ### A contract -/

/-- The forms in which the code of a route is emitted. -/
inductive Form where
  | function
  | receiveOrFallback
  | constructor
  | constructorDeterministic
  | initializeFn
deriving DecidableEq

def Form.emit (entity : Entity) (route : Route) : Form → EmittedFn
  | .function => genRouteImpl entity route
  | .receiveOrFallback => genReceiveOrFallback entity route
  | .constructor => genConstructorImpl entity
  | .constructorDeterministic => genConstructorDeterministic entity
  | .initializeFn => genInitializeFn entity route

/-- The form an init route takes in either mode. -/
def initForms (deterministic : Bool) (entity : Entity) : List (Form × Route) :=
  if deterministic then
    match findInitRoute entity with
    | some route => [(if route.params.isEmpty then .constructorDeterministic else .initializeFn, route)]
    | none => []
  else (constructorRoute entity).toList.map fun route => (.constructor, route)

/-- `gen_route_impl_ext` dispatches on the name of the route. -/
def routeForm (route : Route) : Option (Form × Route) :=
  if isEmittableRoute route then
    some (if isReceiveOrFallback route then .receiveOrFallback else .function, route)
  else none

/-- The routes of a contract with the form each is emitted in (`gen_entity_contract`). -/
def contractForms (deterministic : Bool) (entity : Entity) : List (Form × Route) :=
  initForms deterministic entity ++ entity.routes.filterMap routeForm

end CambrianLang.Solidity
