/-
  **Every place of a program that holds an expression.**

  A site is an expression of a declaration together with the form of the place it
  stands in and the names that have a type there.  `Program.sites` lists the sites
  of all declarations, one per `Expr`-typed field of `ast.rs`, whether a pass visits
  it or not.
-/
import CambrianLang.Ast.ExprMap

namespace CambrianLang.Authored

open Ast

/-- The forms of places. -/
inductive SiteKind where
  | pureFnBody
  | memberDefault
  | transformBody
  | macroBody
  | constant
  | fromArg
  | fromWith
  | fromErrorArg
  | whereCondition
  | whereErrorArg
  | phaseCondition
  | phaseErrorArg
  | action
  | libraryFnBody
  | libraryConstant
  | testInit
  | testStep
  | testPathIndex
  | propertyInit
  | propertyContext
  | propertyStep
  | propertyPathIndex
  | instanceBinding
  | instanceInit
  | instanceContext
  | instanceDelta
  | invariantInit
  | invariantSender
  | invariantDeploy
  | invariantContext
  | invariantStep
  | invariantPathIndex
  | invariantCheck
  | invariantTrack
  | invariantReturn
  | excludedSender
deriving DecidableEq

/-- The names with a type at a site: the members of the entity, then the parameters. -/
structure Scope where
  members : List Param
  params : List Param
deriving DecidableEq

structure Site where
  kind : SiteKind
  scope : Scope
  expr : Expr

/-- Sites of one form in one scope. -/
def sitesAt (kind : SiteKind) (scope : Scope) (es : List Expr) : List Site :=
  es.map fun e => ⟨kind, scope, e⟩

/-! ### Code -/

def Contract.scope (entity : Contract) (params : List Param) : Scope :=
  ⟨entity.members.map fun m => ⟨m.name, m.ty⟩, params⟩

def PureFn.sites (kind : SiteKind) (fn : PureFn) : List Site :=
  sitesAt kind ⟨[], fn.params⟩ [fn.body]

def FromClause.sites (scope : Scope) (fc : FromClause) : List Site :=
  sitesAt .fromArg scope fc.args ++ sitesAt .fromWith scope fc.withParams.toList ++
    sitesAt .fromErrorArg scope fc.errorArgs

def WhereClause.sites (condition errorArg : SiteKind) (scope : Scope) (wc : WhereClause) :
    List Site :=
  sitesAt condition scope [wc.condition] ++ sitesAt errorArg scope wc.errorArgs

def PhaseBlock.sites (scope : Scope) (phase : PhaseBlock) : List Site :=
  phase.whereClauses.flatMap (WhereClause.sites .phaseCondition .phaseErrorArg scope) ++
    sitesAt .action scope (actionsExprs phase.actions)

def RouteBody.sites (scope : Scope) : RouteBody → List Site
  | .unphased actions => sitesAt .action scope (actionsExprs actions)
  | .phased phases => phases.flatMap (PhaseBlock.sites scope)
  | .mixed phases actions =>
    phases.flatMap (PhaseBlock.sites scope) ++ sitesAt .action scope (actionsExprs actions)

def Route.sites (entity : Contract) (route : Route) : List Site :=
  let scope := Contract.scope entity route.params
  route.fromClauses.flatMap (FromClause.sites scope) ++
    route.whereClauses.flatMap (WhereClause.sites .whereCondition .whereErrorArg scope) ++
    RouteBody.sites scope route.body

/-- The parameters a transform names, with the types its route gives them; none for a
    transform of an unknown route. -/
def transformParams (entity : Contract) (t : MemberTransform) : List Param :=
  match entity.routes.find? fun r => r.name == t.routeName with
  | some r => (r.params.zip t.params).filterMap fun
    | (rp, .ident name) => some ⟨name, rp.ty⟩
    | _ => none
  | none => []

def Member.sites (entity : Contract) (m : Member) : List Site :=
  sitesAt .memberDefault (Contract.scope entity []) m.defaultValue.toList ++
    m.transforms.flatMap fun t =>
      sitesAt .transformBody (Contract.scope entity (transformParams entity t)) [t.body]

def Contract.sites (entity : Contract) : List Site :=
  entity.members.flatMap (Member.sites entity) ++ entity.routes.flatMap (Route.sites entity) ++
    (entity.macros.flatMap fun m =>
      sitesAt .macroBody (Contract.scope entity m.params) [m.body]) ++
    sitesAt .constant (Contract.scope entity []) (entity.constants.map (·.value))

def LibraryDecl.sites (lib : LibraryDecl) : List Site :=
  lib.pureFns.flatMap (PureFn.sites .libraryFnBody) ++
    sitesAt .libraryConstant ⟨[], []⟩ (lib.constants.map (·.value))

/-! ### Tests -/

/-- The scope of a test of the named entity. -/
def testScope (entities : List Contract) (entityName : String) (params : List Param) : Scope :=
  match entities.find? fun e => e.name == entityName with
  | some e => Contract.scope e params
  | none => ⟨[], params⟩

def stepSites (value path : SiteKind) (scope : Scope) (steps : List TestStep) : List Site :=
  steps.flatMap fun step =>
    sitesAt value scope (stepValues step) ++ sitesAt path scope (pathIndices step)

def InstanceArg.exprs : InstanceArg → List Expr
  | .concrete value => [value]
  | .range lo hi _ => [lo, hi]

def ContextSpec.exprs (ctx : ContextSpec) : List Expr := ctx.entries.flatMap (·.value.toList)

def TestDecl.sites (entities : List Contract) (params : List Param) (test : TestDecl) :
    List Site :=
  let scope := testScope entities test.entityName params
  sitesAt .testInit scope (test.initState.map Prod.snd) ++
    stepSites .testStep .testPathIndex scope test.body

def PropertyInstance.sites (scope : Scope) (inst : PropertyInstance) : List Site :=
  sitesAt .instanceBinding scope (inst.bindings.flatMap fun b => InstanceArg.exprs b.2) ++
    sitesAt .instanceInit scope (inst.initState.map Prod.snd) ++
    sitesAt .instanceContext scope (ContextSpec.exprs inst.context) ++
    sitesAt .instanceDelta scope (inst.bodyDelta.flatMap TestStep.exprs)

def PropertyDecl.sites (entities : List Contract) (prop : PropertyDecl) : List Site :=
  let scope := testScope entities prop.entityName prop.params
  sitesAt .propertyInit scope (prop.initState.map Prod.snd) ++
    sitesAt .propertyContext scope (ContextSpec.exprs prop.context) ++
    stepSites .propertyStep .propertyPathIndex scope prop.body ++
    prop.instances.flatMap (PropertyInstance.sites scope)

/-- The scope of the checks of an invariant; the members are those of its entity when it
    is about a single one. -/
def invariantScope (entities : List Contract) (inv : InvariantDecl) (params : List Param) : Scope :=
  match inv.entityName, inv.isSingleEntity with
  | some name, true => testScope entities name params
  | _, _ => ⟨[], params⟩

def InvariantDecl.sites (entities : List Contract) (inv : InvariantDecl) : List Site :=
  let scope := invariantScope entities inv
  (inv.instances.flatMap fun inst =>
      sitesAt .invariantInit (testScope entities inst.entity []) (inst.init.map Prod.snd)) ++
    sitesAt .invariantSender (scope []) inv.senders ++
    sitesAt .invariantDeploy (scope []) inv.deploy ++
    sitesAt .invariantContext (scope []) (ContextSpec.exprs inv.context) ++
    (inv.actions.flatMap fun a =>
      stepSites .invariantStep .invariantPathIndex (scope a.params) a.body) ++
    sitesAt .invariantCheck (scope []) inv.checks ++
    sitesAt .invariantTrack (scope []) (inv.track.map (·.value)) ++
    (inv.derived.flatMap fun q =>
      stepSites .invariantStep .invariantPathIndex (scope q.params) q.body ++
        sitesAt .invariantReturn (scope q.params) [q.returnValue]) ++
    sitesAt .excludedSender (scope []) inv.excludeSenders

/-- All the sites of a program. -/
def Program.sites (p : Program) : List Site :=
  p.pureFns.flatMap (PureFn.sites .pureFnBody) ++ p.entities.flatMap Contract.sites ++
    p.libraries.flatMap LibraryDecl.sites ++
    p.tests.flatMap (TestDecl.sites p.entities []) ++
    (p.fuzzTests.flatMap fun t => TestDecl.sites p.entities t.params t.toTestDecl) ++
    p.properties.flatMap (PropertyDecl.sites p.entities) ++
    p.invariants.flatMap (InvariantDecl.sites p.entities)

/-! ### Sites under a pass -/

/-- What a pass does to a site: the expression is rewritten if the pass visits places of
    that form. -/
def Site.mapBy (visits : SiteKind → Bool) (g : Scope → Expr → Expr) (s : Site) : Site :=
  if visits s.kind then { s with expr := g s.scope s.expr } else s

variable {visits : SiteKind → Bool} (g : Scope → Expr → Expr) {kind : SiteKind} (scope : Scope)

theorem sitesAt_visited (h : visits kind = true) (es : List Expr) :
    sitesAt kind scope (es.map (g scope)) =
      (sitesAt kind scope es).map (Site.mapBy visits g) := by
  simp [sitesAt, Site.mapBy, h]

theorem sitesAt_passed (h : visits kind = false) (es : List Expr) :
    sitesAt kind scope es = (sitesAt kind scope es).map (Site.mapBy visits g) := by
  simp [sitesAt, Site.mapBy, h]

end CambrianLang.Authored
