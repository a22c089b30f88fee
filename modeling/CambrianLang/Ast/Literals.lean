/-
  **The literals of the primitive types** (`map_program_exprs` and
  `desugar_primitive_type_literals` in `ast.rs`).

  `U256::MAX` and its like are replaced by integer literals wherever the walk over
  the program comes.  Which places those are is read off the sites of the program
  before and after the walk.
-/
import CambrianLang.Ast.Sites

namespace CambrianLang.Authored

open Ast CambrianLang.Core BottomUp

/-! ### The walk over a program -/

def mapPureFn (g : Expr → Expr) (fn : PureFn) : PureFn := { fn with body := g fn.body }

def mapConst (g : Expr → Expr) (c : Const) : Const := { c with value := g c.value }

def mapMacro (g : Expr → Expr) (m : Macro) : Macro := { m with body := g m.body }

def mapTransform (g : Expr → Expr) (t : MemberTransform) : MemberTransform :=
  { t with body := g t.body }

def mapMember (g : Expr → Expr) (m : Member) : Member :=
  { m with
    defaultValue := m.defaultValue.map g
    transforms := m.transforms.map (mapTransform g) }

/-- The arguments and `with` parameters of a `from` clause; its error arguments are passed
    over. -/
def mapFromClause (g : Expr → Expr) (fc : FromClause) : FromClause :=
  { fc with args := fc.args.map g, withParams := fc.withParams.map g }

def mapRoute (g : Expr → Expr) (route : Route) : Route :=
  { route with
    fromClauses := route.fromClauses.map (mapFromClause g)
    whereClauses := route.whereClauses.map (mapWhereClause g)
    body := mapRouteBody g route.body }

def mapEntity (g : Expr → Expr) (entity : Contract) : Contract :=
  { entity with
    members := entity.members.map (mapMember g)
    routes := entity.routes.map (mapRoute g)
    macros := entity.macros.map (mapMacro g)
    constants := entity.constants.map (mapConst g) }

def mapLibrary (g : Expr → Expr) (lib : LibraryDecl) : LibraryDecl :=
  { lib with
    pureFns := lib.pureFns.map (mapPureFn g)
    constants := lib.constants.map (mapConst g) }

def mapTest (g : Expr → Expr) (test : TestDecl) : TestDecl :=
  { test with
    initState := onValues g test.initState
    body := test.body.map (mapTestStep g) }

def mapFuzz (g : Expr → Expr) (fuzz : FuzzDecl) : FuzzDecl :=
  { fuzz with
    initState := onValues g fuzz.initState
    body := fuzz.body.map (mapTestStep g) }

def mapInstanceArg (g : Expr → Expr) : InstanceArg → InstanceArg
  | .concrete value => .concrete (g value)
  | .range lo hi inclusive => .range (g lo) (g hi) inclusive

/-- The bindings and initial state of an instance; its context and body delta are passed
    over. -/
def mapInstance (g : Expr → Expr) (inst : PropertyInstance) : PropertyInstance :=
  { inst with
    bindings := inst.bindings.map fun b => (b.1, mapInstanceArg g b.2)
    initState := onValues g inst.initState }

/-- The context of a property is passed over. -/
def mapProperty (g : Expr → Expr) (prop : PropertyDecl) : PropertyDecl :=
  { prop with
    initState := onValues g prop.initState
    body := prop.body.map (mapTestStep g)
    instances := prop.instances.map (mapInstance g) }

/-- The initial states of the instances, the context and the excluded senders of an
    invariant are passed over. -/
def mapInvariant (g : Expr → Expr) (inv : InvariantDecl) : InvariantDecl :=
  { inv with
    deploy := inv.deploy.map g
    senders := inv.senders.map g
    actions := inv.actions.map fun a => { a with body := a.body.map (mapTestStep g) }
    checks := inv.checks.map g
    track := inv.track.map fun t => { t with value := g t.value }
    derived := inv.derived.map fun q =>
      { q with body := q.body.map (mapTestStep g), returnValue := g q.returnValue } }

/-- `map_program_exprs`, the walk over one expression being the parameter `g`. -/
def mapProgram (g : Expr → Expr) (p : Program) : Program :=
  { p with
    pureFns := p.pureFns.map (mapPureFn g)
    entities := p.entities.map (mapEntity g)
    libraries := p.libraries.map (mapLibrary g)
    tests := p.tests.map (mapTest g)
    fuzzTests := p.fuzzTests.map (mapFuzz g)
    properties := p.properties.map (mapProperty g)
    invariants := p.invariants.map (mapInvariant g) }

/-- Two walks over a program are one walk with both functions. -/
theorem mapProgram_mapProgram (g h : Expr → Expr) (p : Program) :
    mapProgram g (mapProgram h p) = mapProgram (g ∘ h) p := by
  have harg : ∀ arg, mapInstanceArg g (mapInstanceArg h arg) = mapInstanceArg (g ∘ h) arg := by
    rintro (_ | _) <;> rfl
  simp [mapProgram, mapPureFn, mapEntity, mapMember, mapTransform, mapRoute, mapFromClause,
    mapWhereClause, mapMacro, mapConst, mapLibrary, mapTest, mapFuzz, mapProperty, mapInstance,
    mapInvariant, mapRouteBody_mapRouteBody, mapTestStep_mapTestStep, onValues_onValues, harg,
    Option.map_map, Function.comp_def]

/-- `map_program_exprs`. -/
def mapProgramExprs (f : Expr → Expr) (p : Program) : Program := mapProgram (mapExpr f) p

/-- `desugar_primitive_type_literal`. -/
def desugarPrimitiveTypeLiteral : Expr → Expr
  | .enumVariant ty name =>
    if ty == "U256" || ty == "uint256" then
      match name with
      | "MAX" => .intLiteral U256.max
      | "ZERO" => .intLiteral U256.zero
      | "ONE" => .intLiteral U256.one
      | _ => .enumVariant ty name
    else .enumVariant ty name
  | e => e

/-- `desugar_primitive_type_literals`. -/
def desugarPrimitiveTypeLiterals (p : Program) : Program :=
  mapProgramExprs desugarPrimitiveTypeLiteral p

/-! ### Where the walk comes -/

/-- The forms of places the walk visits. -/
def SiteKind.mapped : SiteKind → Bool
  | .fromErrorArg | .whereErrorArg | .phaseErrorArg | .testPathIndex | .propertyContext
  | .propertyPathIndex | .instanceContext | .instanceDelta | .invariantInit | .invariantContext
  | .invariantPathIndex | .excludedSender => false
  | _ => true

variable (visits : SiteKind → Bool) (g : Scope → Expr → Expr) (scope : Scope)

/-- A walk over route bodies, seen from their sites. -/
theorem routeBodySites_map (hcond : visits .phaseCondition = true)
    (hargs : visits .phaseErrorArg = false) (hact : visits .action = true) (body : RouteBody) :
    RouteBody.sites scope (mapRouteBody (g scope) body) =
      (RouteBody.sites scope body).map (Site.mapBy visits g) := by
  have hphase : ∀ phase : PhaseBlock, PhaseBlock.sites scope (mapPhase (g scope) phase) =
      (PhaseBlock.sites scope phase).map (Site.mapBy visits g) := by
    intro phase
    simp only [PhaseBlock.sites, mapPhase, actionsExprs_map, List.flatMap_map, List.map_append,
      List.map_flatMap, WhereClause.sites, mapWhereClause, ← sitesAt_visited g scope hact,
      ← sitesAt_visited g scope hcond, ← sitesAt_passed g scope hargs, List.map_cons, List.map_nil]
  cases body <;>
    simp [RouteBody.sites, mapRouteBody, actionsExprs_map, List.flatMap_map, List.map_flatMap,
      hphase, ← sitesAt_visited g scope hact]

theorem stepSites_map {value path : SiteKind} (hvalue : visits value = true)
    (hpath : visits path = false) (steps : List TestStep) :
    stepSites value path scope (steps.map (mapTestStep (g scope))) =
      (stepSites value path scope steps).map (Site.mapBy visits g) := by
  simp only [stepSites, List.flatMap_map, List.map_flatMap, List.map_append, stepValues_map,
    pathIndices_map, ← sitesAt_visited g scope hvalue, ← sitesAt_passed g scope hpath]

theorem contractScope_map (k : Expr → Expr) (entity : Contract) (params : List Param) :
    Contract.scope (mapEntity k entity) params = Contract.scope entity params := by
  simp [Contract.scope, mapEntity, mapMember]

theorem transformParams_map (k : Expr → Expr) (entity : Contract) (t : MemberTransform) :
    transformParams (mapEntity k entity) (mapTransform k t) = transformParams entity t := by
  have hname : (fun r : Route => r.name == t.routeName) ∘ mapRoute k =
      fun r => r.name == t.routeName := rfl
  simp only [transformParams, mapEntity, mapTransform, List.find?_map, hname]
  cases entity.routes.find? fun r => r.name == t.routeName <;> rfl

theorem testScope_map (k : Expr → Expr) (entities : List Contract) (name : String)
    (params : List Param) :
    testScope (entities.map (mapEntity k)) name params = testScope entities name params := by
  have hname : (fun e : Contract => e.name == name) ∘ mapEntity k = fun e => e.name == name := rfl
  simp only [testScope, List.find?_map, hname]
  cases entities.find? fun e => e.name == name with
  | none => rfl
  | some e => exact contractScope_map k e params

/-- The walk with `k`, seen at one site. -/
abbrev Site.walked (k : Expr → Expr) : Site → Site := Site.mapBy SiteKind.mapped fun _ => k

variable {k : Expr → Expr} (kind : SiteKind)

theorem sitesAt_walked (hkind : kind.mapped = true) (scope : Scope) (es : List Expr) :
    sitesAt kind scope (es.map k) = (sitesAt kind scope es).map (Site.walked k) :=
  sitesAt_visited (fun _ => k) scope hkind es

theorem sitesAt_unwalked (hkind : kind.mapped = false) (scope : Scope) (es : List Expr) :
    (sitesAt kind scope es).map (Site.walked k) = sitesAt kind scope es :=
  (sitesAt_passed (fun _ => k) scope hkind es).symm

theorem pureFnSites_map (hkind : kind.mapped = true) (fn : PureFn) :
    PureFn.sites kind (mapPureFn k fn) = (PureFn.sites kind fn).map (Site.walked k) :=
  sitesAt_walked kind hkind _ [fn.body]

theorem routeSites_map (entity : Contract) (route : Route) :
    Route.sites (mapEntity k entity) (mapRoute k route) =
      (Route.sites entity route).map (Site.walked k) := by
  have hbody := routeBodySites_map SiteKind.mapped (fun _ => k)
    (Contract.scope entity route.params) rfl rfl rfl route.body
  simp only [Route.sites, contractScope_map, mapRoute, List.flatMap_map, List.map_append,
    List.map_flatMap, FromClause.sites, WhereClause.sites, mapFromClause, mapWhereClause,
    option_toList_map, hbody]
  simp only [sitesAt_walked .fromArg rfl, sitesAt_walked .fromWith rfl,
    ← sitesAt_walked .whereCondition rfl (k := k), List.map_cons, List.map_nil,
    sitesAt_unwalked .fromErrorArg rfl, sitesAt_unwalked .whereErrorArg rfl]

theorem memberSites_map (entity : Contract) (m : Member) :
    Member.sites (mapEntity k entity) (mapMember k m) =
      (Member.sites entity m).map (Site.walked k) := by
  simp only [Member.sites, contractScope_map, mapMember, option_toList_map, List.flatMap_map,
    transformParams_map, List.map_append, List.map_flatMap, sitesAt_walked .memberDefault rfl,
    ← sitesAt_walked .transformBody rfl (k := k), List.map_cons, List.map_nil]
  rfl

theorem contractSites_map (entity : Contract) :
    Contract.sites (mapEntity k entity) = (Contract.sites entity).map (Site.walked k) := by
  have hmembers : (mapEntity k entity).members = entity.members.map (mapMember k) := rfl
  have hroutes : (mapEntity k entity).routes = entity.routes.map (mapRoute k) := rfl
  have hmacros : (mapEntity k entity).macros = entity.macros.map (mapMacro k) := rfl
  have hconsts : (mapEntity k entity).constants.map (·.value) =
      (entity.constants.map (·.value)).map k := by
    simp [mapEntity, mapConst]
  simp only [Contract.sites, hmembers, hroutes, hmacros, hconsts, List.flatMap_map, memberSites_map,
    routeSites_map, contractScope_map, List.map_append, List.map_flatMap,
    sitesAt_walked .constant rfl, ← sitesAt_walked .macroBody rfl (k := k),
    List.map_cons, List.map_nil]
  rfl

theorem librarySites_map (lib : LibraryDecl) :
    LibraryDecl.sites (mapLibrary k lib) = (LibraryDecl.sites lib).map (Site.walked k) := by
  have hconsts : (lib.constants.map (mapConst k)).map (·.value) =
      (lib.constants.map (·.value)).map k := by
    simp [mapConst]
  simp only [LibraryDecl.sites, mapLibrary, List.flatMap_map, hconsts,
    pureFnSites_map .libraryFnBody rfl, List.map_append, List.map_flatMap,
    sitesAt_walked .libraryConstant rfl]

theorem stepSites_walked (value path : SiteKind) (hvalue : value.mapped = true)
    (hpath : path.mapped = false) (scope : Scope) (steps : List TestStep) :
    stepSites value path scope (steps.map (mapTestStep k)) =
      (stepSites value path scope steps).map (Site.walked k) :=
  stepSites_map SiteKind.mapped (fun _ => k) scope hvalue hpath steps

theorem testSites_map (entities : List Contract) (params : List Param) (test : TestDecl) :
    TestDecl.sites (entities.map (mapEntity k)) params (mapTest k test) =
      (TestDecl.sites entities params test).map (Site.walked k) := by
  simp only [TestDecl.sites, mapTest, testScope_map, map_snd_onValues, List.map_append,
    sitesAt_walked .testInit rfl, stepSites_walked .testStep .testPathIndex rfl rfl]

theorem instanceArgExprs_map (arg : InstanceArg) :
    InstanceArg.exprs (mapInstanceArg k arg) = (InstanceArg.exprs arg).map k := by
  cases arg <;> rfl

theorem instanceSites_map (scope : Scope) (inst : PropertyInstance) :
    PropertyInstance.sites scope (mapInstance k inst) =
      (PropertyInstance.sites scope inst).map (Site.walked k) := by
  have hbindings : ((mapInstance k inst).bindings.flatMap fun b => InstanceArg.exprs b.2) =
      (inst.bindings.flatMap fun b => InstanceArg.exprs b.2).map k := by
    simp [mapInstance, List.flatMap_map, List.map_flatMap, instanceArgExprs_map]
  simp only [PropertyInstance.sites, hbindings, List.map_append, sitesAt_walked .instanceBinding rfl,
    sitesAt_unwalked .instanceContext rfl, sitesAt_unwalked .instanceDelta rfl]
  simp only [mapInstance, map_snd_onValues, sitesAt_walked .instanceInit rfl]

theorem propertySites_map (entities : List Contract) (prop : PropertyDecl) :
    PropertyDecl.sites (entities.map (mapEntity k)) (mapProperty k prop) =
      (PropertyDecl.sites entities prop).map (Site.walked k) := by
  simp only [PropertyDecl.sites, mapProperty, testScope_map, map_snd_onValues, List.map_append,
    List.flatMap_map, List.map_flatMap, instanceSites_map, sitesAt_walked .propertyInit rfl,
    sitesAt_unwalked .propertyContext rfl,
    stepSites_walked .propertyStep .propertyPathIndex rfl rfl]

theorem invariantScope_map (entities : List Contract) (inv : InvariantDecl) :
    invariantScope (entities.map (mapEntity k)) (mapInvariant k inv) =
      invariantScope entities inv := by
  have hname : (mapInvariant k inv).entityName = inv.entityName := rfl
  have hsingle : (mapInvariant k inv).isSingleEntity = inv.isSingleEntity := rfl
  funext params
  simp only [invariantScope, hname, hsingle]
  split
  · exact testScope_map k entities _ params
  · rfl

theorem invariantSites_map (entities : List Contract) (inv : InvariantDecl) :
    InvariantDecl.sites (entities.map (mapEntity k)) (mapInvariant k inv) =
      (InvariantDecl.sites entities inv).map (Site.walked k) := by
  have hsteps := stepSites_walked (k := k) .invariantStep .invariantPathIndex rfl rfl
  have htrack : (mapInvariant k inv).track.map (·.value) = (inv.track.map (·.value)).map k := by
    simp [mapInvariant]
  simp only [InvariantDecl.sites, invariantScope_map, htrack]
  simp only [mapInvariant, testScope_map, List.map_append, List.flatMap_map, List.map_flatMap,
    hsteps, sitesAt_unwalked .invariantInit rfl, sitesAt_walked .invariantSender rfl,
    sitesAt_walked .invariantDeploy rfl, sitesAt_unwalked .invariantContext rfl,
    sitesAt_walked .invariantCheck rfl, sitesAt_walked .invariantTrack rfl,
    ← sitesAt_walked .invariantReturn rfl (k := k), List.map_cons, List.map_nil,
    sitesAt_unwalked .excludedSender rfl]

/-- **Where the walk comes.**  The sites of the program afterwards are those before it, with
    the expressions at the visited places walked and the others untouched. -/
theorem sites_mapProgram (p : Program) :
    (mapProgram k p).sites = p.sites.map (Site.walked k) := by
  have hfuzz : ∀ t : FuzzDecl, TestDecl.sites (p.entities.map (mapEntity k)) (mapFuzz k t).params
      (mapFuzz k t).toTestDecl =
        (TestDecl.sites p.entities t.params t.toTestDecl).map (Site.walked k) :=
    fun t => testSites_map p.entities t.params t.toTestDecl
  simp only [Program.sites, mapProgram, List.flatMap_map, List.map_append, List.map_flatMap,
    pureFnSites_map .pureFnBody rfl, contractSites_map, librarySites_map, testSites_map, hfuzz,
    propertySites_map, invariantSites_map]

/-! ### What is left of the literals -/

/-- An `EnumVariant` node that spells a literal of the primitive 256-bit type. -/
def PrimitiveLiteral (e : Expr) : Prop :=
  ∃ ty name, e = .enumVariant ty name ∧ ty ∈ ["U256", "uint256"] ∧ name ∈ ["MAX", "ZERO", "ONE"]

theorem desugar_of_not_literal {e : Expr} (h : ¬ PrimitiveLiteral e) :
    desugarPrimitiveTypeLiteral e = e := by
  fun_cases desugarPrimitiveTypeLiteral e with
  | case1 ty hty | case2 ty hty | case3 ty hty => simp_all [PrimitiveLiteral]
  | case4 | case5 | case6 => rfl

theorem not_literal_desugar (e : Expr) : ¬ PrimitiveLiteral (desugarPrimitiveTypeLiteral e) := by
  fun_cases desugarPrimitiveTypeLiteral e with
  | case1 | case2 | case3 => simp [PrimitiveLiteral]
  | case4 | case5 | case6 => simp_all [PrimitiveLiteral]

/-- The replacement is a literal, or the expression itself. -/
theorem children_desugar (e : Expr) :
    (desugarPrimitiveTypeLiteral e).children ⊆ e.children := by
  fun_cases desugarPrimitiveTypeLiteral e with
  | case1 | case2 | case3 => exact List.nil_subset _
  | case4 | case5 | case6 => exact List.Subset.refl _

/-- No subexpression is one of the literals. -/
def LiteralFree (e : Expr) : Prop := Everywhere (fun s => ¬ PrimitiveLiteral s) e

theorem literalFree_mapExpr (e : Expr) : LiteralFree (mapExpr desugarPrimitiveTypeLiteral e) := by
  refine mapExpr_rewrites.everywhere (fun a ha => ?_) e
  refine Layered.everywhere_iff.mpr ⟨not_literal_desugar a, ?_⟩
  intro b hb
  exact ha b (children_desugar a hb)

/-- Where there is no literal the pass changes nothing. -/
theorem mapExpr_of_literalFree {e : Expr} (h : LiteralFree e) :
    mapExpr desugarPrimitiveTypeLiteral e = e :=
  mapExpr_rewrites.eq_self (h.imp fun _ hs => desugar_of_not_literal hs)

theorem forall_site_walked {p : Program} {P : Expr → Prop} :
    (∀ s ∈ (mapProgram k p).sites, P s.expr) ↔
      ∀ s ∈ p.sites, if s.kind.mapped then P (k s.expr) else P s.expr := by
  simp only [sites_mapProgram, List.forall_mem_map, Site.mapBy]
  refine forall₂_congr fun s _ => ?_
  split <;> rfl

/-- **What the walk reaches, and which literals it leaves.**  The callback is applied at
    every place of the program exactly when the program has no place of the forms passed
    over, and no literal is left exactly when there is none at such a place. -/
theorem literals_left_iff (p : Program) :
    ((∀ f, (mapProgramExprs f p).sites =
        p.sites.map fun s => { s with expr := mapExpr f s.expr }) ↔
      ∀ s ∈ p.sites, s.kind.mapped = true) ∧
    ((∀ s ∈ (desugarPrimitiveTypeLiterals p).sites, LiteralFree s.expr) ↔
      ∀ s ∈ p.sites, s.kind.mapped = false → LiteralFree s.expr) := by
  constructor
  · simp only [mapProgramExprs, sites_mapProgram, List.map_inj_left]
    constructor
    · intro hall s hs
      by_contra hskip
      -- a callback whose results contain the skipped expression
      have heq := hall (fun _ => .someE s.expr) s hs
      rw [Site.walked, Site.mapBy, if_neg hskip, mapExpr_eq] at heq
      have hexpr : s.expr = .someE s.expr := congrArg Site.expr heq
      have hrank := congrArg Expr.rank hexpr
      simp only [Expr.rank] at hrank
      omega
    · intro hall f s hs
      rw [Site.walked, Site.mapBy, if_pos (hall s hs)]
  · rw [desugarPrimitiveTypeLiterals, mapProgramExprs, forall_site_walked]
    refine forall₂_congr fun s _ => ?_
    cases hkind : s.kind.mapped with
    | true => simp [literalFree_mapExpr]
    | false => simp

/-- A vault whose deposits are capped: `where amount <= cap : throw OverCap(U256::MAX)`. -/
def cappedVault : Program :=
  { Program.empty with
    entities := [{
      name := "Vault", records := [], enums := [], typeAliases := [], constants := []
      macros := [], members := [], events := []
      errors := [{ name := "OverCap", params := [⟨"limit", .simple "U256"⟩] }]
      routes := [{
        name := "deposit", params := [⟨"amount", .simple "U256"⟩], fromClauses := []
        whereClauses := [{
          condition := .binOp (.ident "amount") .lt (.enumVariant "U256" "MAX"), errorCode := 0
          errorName := some "OverCap", errorArgs := [.enumVariant "U256" "MAX"] }]
        returnType := none, body := .unphased [], isView := false, isPure := false
        isInit := false, isAccept := false, isPrivate := false, recoverTag := none
        factoryOnly := false }] }] }

/-- The literal in the condition is replaced, the one in the error argument is left. -/
theorem cappedVault_keeps_literal :
    ∃ s ∈ (desugarPrimitiveTypeLiterals cappedVault).sites, PrimitiveLiteral s.expr := by
  have hsite : (desugarPrimitiveTypeLiterals cappedVault).sites[1]? =
      some ⟨.whereErrorArg, ⟨[], [⟨"amount", .simple "U256"⟩]⟩, .enumVariant "U256" "MAX"⟩ := rfl
  exact ⟨_, List.mem_of_getElem? hsite, "U256", "MAX", rfl, by decide, by decide⟩

/-- The walk is not complete. -/
theorem literals_left :
    ¬ ∀ p : Program, ∀ s ∈ (desugarPrimitiveTypeLiterals p).sites, LiteralFree s.expr := by
  intro hall
  obtain ⟨s, hs, hlit⟩ := cappedVault_keeps_literal
  exact (hall cappedVault s hs).root hlit

end CambrianLang.Authored
