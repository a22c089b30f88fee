/-
  **The EVM compatibility gate** (`check_evm_target_compat_with`).

  The gate runs the declaration rules, the type rules and, over the expressions
  of route actions, route wheres, transforms, macros and pure functions, the
  expression gate.  The main result lists the positions of emitted expressions
  that it never looks at: an accepted program has a rejected form exactly when it
  has one there.
-/
import CambrianLang.Validate.EvmExpr
import CambrianLang.Validate.EvmRules
import CambrianLang.Validate.EvmTypes

namespace CambrianLang.Validate

open Ast Traversal Relation

/-! ### Actions -/

mutual
/-- `is_inferable_tuple_rhs`, with the names of the pure functions of the program. -/
def isInferableTupleRhs (pureFnNames : List String) : Expr → Bool
  | .tuple _ => true
  | .fnCall name _ => name == "divmod" || pureFnNames.contains name
  | .ifE _ thenE _ => isInferableTupleRhs pureFnNames thenE
  | .block items => isInferableLast pureFnNames items
  | _ => false
def isInferableLast (pureFnNames : List String) : List Expr → Bool
  | [] => false
  | [e] => isInferableTupleRhs pureFnNames e
  | _ :: e :: es => isInferableLast pureFnNames (e :: es)
end

/-- The sites of the expressions an action evaluates itself. -/
def actionSites : RouteAction → List Site
  | .forA _ iter _ => [⟨iterUse iter, iter⟩]
  | a => a.exprs.map valueSite

/-- The expressions of an action that `check_evm_compat_actions` looks at. -/
def gatedExprs : RouteAction → List Expr
  | .effect _ _ args => args
  | .letA _ value => [value]
  | .ret values => values
  | .conditional condition _ _ => [condition]
  | .send _ args dest opts => dest :: args ++ opts.toList
  | .deploy _ opts args => opts.toList ++ args
  | _ => []

/-- The actions it descends into. -/
def visitedActions : RouteAction → List RouteAction
  | .conditional _ thenActions elseActions => thenActions ++ elseActions
  | .rescue _ action => [action]
  | _ => []

/-- The diagnostics about the action itself. -/
def checkActionForm (at_ : String) : RouteAction → List Diagnostic
  | .effect ns name _ =>
      if ns = "gosh" then
        if name = "setcode" ∨ name = "setCurrentCode" then
          [.warning "E06" (at_ ++ "gosh::" ++ name ++
            " — on-chain code upgrade not supported on EVM target")]
        else [.warning "E02" (at_ ++ "gosh::" ++ name ++ " has no EVM equivalent")]
      else []
  | .rescue tag _ =>
      [.error "E26" (at_ ++ "`rescue " ++ tag ++ "` is TVM-specific (async bounce recovery). The EVM " ++
        "domain has no analogue and no try/catch lowering. Use --target ackinacki, or remove the " ++
        "rescue (`where`/`throw` still abort the route).")]
  | _ => []

/-- A tuple `let` needs a right-hand side of known component types (E23). -/
def checkTupleLet (at_ : String) (pureFnNames : List String) : RouteAction → List Diagnostic
  | .letA (.tuple _) value =>
      if isInferableTupleRhs pureFnNames value then []
      else
        [.error "E23" (at_ ++ "`let (a, b, ...) = <expr>` destructure on EVM requires the RHS to be a " ++
          "tuple literal, a known pure-fn returning a tuple, or `divmod(...)`. Other shapes silently " ++
          "widen every slot to `uint256`. Bind the call to a single name and project the components " ++
          "separately, e.g. `let r = ...; let a = r.0;`.")]
  | _ => []

/-- `check_evm_compat_actions`, on one action. -/
def checkEvmCompatActions (at_ : String) (deterministic : Bool) (pureFnNames : List String) :
    Walker RouteAction Diagnostic where
  own a := checkActionForm at_ a ++
    ((gatedExprs a).map valueSite).flatMap (checkEvmCompatExpr at_ deterministic).walk ++
    checkTupleLet at_ pureFnNames a
  visited := visitedActions
  rank := RouteAction.rank
  rank_lt {a b} h := by
    cases a with
    | conditional | rescue => exact rank_nested_lt h
    | _ => exact absurd h List.not_mem_nil

/-! ### The gate -/

/-- `check_evm_compat_expr` on an expression of the given entity and route. -/
def gateExpr (deterministic : Bool) (entityName routeName : String) (e : Expr) : List Diagnostic :=
  (checkEvmCompatExpr (atRoute entityName routeName) deterministic).walk (valueSite e)

/-- The part of the gate about one route. -/
def checkEvmRoute (deterministic : Bool) (program : Program) (entity : Entity) (route : Route) :
    List Diagnostic :=
  let at_ := atRoute entity.name route.name
  (if !route.fromClauses.isEmpty then
    [.warning "E09" (at_ ++ "from-clause sender verification maps to require(msg.sender == ...) on EVM")]
  else []) ++
  (if route.isAccept && route.name != "receive" then
    [.warning "E05" (at_ ++ "'accept' modifier has no EVM equivalent (ignored)")]
  else []) ++
  (match route.recoverTag with
    | some tag =>
        [.error "E26" (at_ ++ "`recover " ++ tag ++ "` is TVM-specific bounce handling (Acki Nacki " ++
          "only). The EVM domain has no analogue and no try/catch / contained-failure lowering.")]
    | none => []) ++
  (route.body.allActions.flatMap
    (checkEvmCompatActions at_ deterministic (program.pureFns.map PureFn.name)).walk) ++
  route.whereClauses.flatMap fun wc => gateExpr deterministic entity.name route.name wc.condition

/-- The part of the gate about one entity. -/
def checkEvmEntity (deterministic : Bool) (program : Program) (entity : Entity) : List Diagnostic :=
  entity.routes.flatMap (checkEvmRoute deterministic program entity) ++
  (entity.members.flatMap fun member => member.transforms.flatMap fun t =>
    gateExpr deterministic entity.name t.routeName t.body) ++
  checkEvmCompatMemberTransforms entity ++
  entity.macros.flatMap fun mac => gateExpr deterministic entity.name mac.name mac.body

/-- `check_evm_target_compat_with`, without the warnings about tests and properties. -/
def checkEvmTargetCompatWith (program : Program) (deterministic : Bool) : List Diagnostic :=
  checkEvmCompatProgramTypes program ++
  (program.imports.flatMap fun imp =>
    if imp.ns = "gosh" then
      [.warning "E01" ("use gosh: gosh namespace has limited EVM support; most gosh:: calls become " ++
        "no-ops")]
    else []) ++
  checkEvmExternEntityRefs program ++
  checkEvmFromClauseArity program deterministic ++
  (if deterministic then
    program.entities.flatMap fun entity =>
      checkFactoryOnlyRequiredOnInit entity ++ checkInitRouteMsgSenderUnderFactory entity
  else []) ++
  checkReceiveFallback program ++
  program.entities.flatMap (checkEvmEntity deterministic program) ++
  program.pureFns.flatMap fun pf => gateExpr deterministic "pure_fn" pf.name pf.body

/-! ### Emitted positions and positions outside the gate -/

/-- The positions of expressions that the back end emits. -/
inductive EmittedSite (program : Program) : Site → Prop where
  | action {entity route a b s} (he : entity ∈ program.entities) (hr : route ∈ entity.routes)
      (ha : a ∈ route.body.allActions) (hb : Subaction a b) (hs : s ∈ actionSites b) :
      EmittedSite program s
  | whereCondition {entity route wc} (he : entity ∈ program.entities) (hr : route ∈ entity.routes)
      (hw : wc ∈ route.whereClauses) : EmittedSite program (valueSite wc.condition)
  | transform {entity member t} (he : entity ∈ program.entities) (hm : member ∈ entity.members)
      (ht : t ∈ member.transforms) : EmittedSite program (valueSite t.body)
  | macroBody {entity mac} (he : entity ∈ program.entities) (hm : mac ∈ entity.macros) :
      EmittedSite program (valueSite mac.body)
  | pureFn {pf} (hf : pf ∈ program.pureFns) : EmittedSite program (valueSite pf.body)
  | whereError {entity route wc e} (he : entity ∈ program.entities) (hr : route ∈ entity.routes)
      (hw : wc ∈ route.whereClauses) (ha : e ∈ wc.errorArgs) : EmittedSite program (valueSite e)
  | phaseWhere {entity route phase wc e} (he : entity ∈ program.entities)
      (hr : route ∈ entity.routes) (hp : phase ∈ route.body.phaseBlocks)
      (hw : wc ∈ phase.whereClauses) (ha : e ∈ wc.condition :: wc.errorArgs) :
      EmittedSite program (valueSite e)
  | fromClause {entity route fc e} (he : entity ∈ program.entities) (hr : route ∈ entity.routes)
      (hf : fc ∈ route.fromClauses) (ha : e ∈ fc.args ++ fc.withParams.toList ++ fc.errorArgs) :
      EmittedSite program (valueSite e)
  | default {entity member e} (he : entity ∈ program.entities) (hm : member ∈ entity.members)
      (hd : member.defaultValue = some e) : EmittedSite program (valueSite e)
  | constant {entity c} (he : entity ∈ program.entities) (hc : c ∈ entity.constants) :
      EmittedSite program (valueSite c.value)
  | libraryFn {lib pf} (hl : lib ∈ program.libraries) (hf : pf ∈ lib.pureFns) :
      EmittedSite program (valueSite pf.body)
  | libraryConstant {lib c} (hl : lib ∈ program.libraries) (hc : c ∈ lib.constants) :
      EmittedSite program (valueSite c.value)

/-- An action whose expressions the gate ignores. -/
def skipsExprs : RouteAction → Bool
  | .varCall .. | .callRoute .. | .emit .. | .throwCustom .. | .updateCode .. | .forA .. => true
  | _ => false

/-- The positions the gate never looks at: the expressions of some kinds of action,
    everything in the body of an action-level `for`, error arguments, phase wheres,
    `from` clauses, defaults, constants and libraries. -/
inductive UngatedSite (program : Program) : Site → Prop where
  | action {entity route a b s} (he : entity ∈ program.entities) (hr : route ∈ entity.routes)
      (ha : a ∈ route.body.allActions) (hb : ReflTransGen (fun x y => y ∈ visitedActions x) a b)
      (hskip : skipsExprs b = true) (hs : s ∈ actionSites b) : UngatedSite program s
  | forBody {entity route a pattern iter body c d s} (he : entity ∈ program.entities)
      (hr : route ∈ entity.routes) (ha : a ∈ route.body.allActions)
      (hb : ReflTransGen (fun x y => y ∈ visitedActions x) a (.forA pattern iter body))
      (hc : c ∈ body) (hd : Subaction c d) (hs : s ∈ actionSites d) : UngatedSite program s
  | whereError {entity route wc e} (he : entity ∈ program.entities) (hr : route ∈ entity.routes)
      (hw : wc ∈ route.whereClauses) (ha : e ∈ wc.errorArgs) : UngatedSite program (valueSite e)
  | phaseWhere {entity route phase wc e} (he : entity ∈ program.entities)
      (hr : route ∈ entity.routes) (hp : phase ∈ route.body.phaseBlocks)
      (hw : wc ∈ phase.whereClauses) (ha : e ∈ wc.condition :: wc.errorArgs) :
      UngatedSite program (valueSite e)
  | fromClause {entity route fc e} (he : entity ∈ program.entities) (hr : route ∈ entity.routes)
      (hf : fc ∈ route.fromClauses) (ha : e ∈ fc.args ++ fc.withParams.toList ++ fc.errorArgs) :
      UngatedSite program (valueSite e)
  | default {entity member e} (he : entity ∈ program.entities) (hm : member ∈ entity.members)
      (hd : member.defaultValue = some e) : UngatedSite program (valueSite e)
  | constant {entity c} (he : entity ∈ program.entities) (hc : c ∈ entity.constants) :
      UngatedSite program (valueSite c.value)
  | libraryFn {lib pf} (hl : lib ∈ program.libraries) (hf : pf ∈ lib.pureFns) :
      UngatedSite program (valueSite pf.body)
  | libraryConstant {lib c} (hl : lib ∈ program.libraries) (hc : c ∈ lib.constants) :
      UngatedSite program (valueSite c.value)

theorem visitedActions_sub {a b : RouteAction} (h : b ∈ visitedActions a) : b ∈ a.children := by
  cases a with
  | conditional | rescue => exact h
  | _ => exact absurd h List.not_mem_nil

/-- The only nested actions the gate does not descend into are those of a `for`. -/
theorem exists_for_of_not_visited {a b : RouteAction} (h : b ∈ a.children)
    (hv : b ∉ visitedActions a) : ∃ pattern iter body, a = .forA pattern iter body ∧ b ∈ body := by
  cases a with
  | forA pattern iter body => exact ⟨pattern, iter, body, rfl, h⟩
  | conditional | rescue => exact absurd h hv
  | _ => exact absurd h List.not_mem_nil

/-- The gate looks at every expression of an action, or at none. -/
theorem mem_gated_or_skips {a : RouteAction} {s : Site} (h : s ∈ actionSites a) :
    s ∈ (gatedExprs a).map valueSite ∨ skipsExprs a = true := by
  cases a with
  | send message args dest opts =>
    refine Or.inl ?_
    simp only [actionSites, RouteAction.exprs, gatedExprs, List.map_append, List.map_cons,
      List.mem_append, List.mem_cons] at h ⊢
    rcases h with h | h | h
    · exact Or.inl (Or.inr h)
    · exact Or.inl (Or.inl h)
    · exact Or.inr h
  | conditional | ret | letA | effect | deploy => exact Or.inl h
  | rescue | throw => exact absurd h List.not_mem_nil
  | throwCustom | emit | callRoute | varCall | updateCode | forA => exact Or.inr rfl

theorem UngatedSite.emitted {program : Program} {s : Site} (h : UngatedSite program s) :
    EmittedSite program s := by
  cases h with
  | action he hr ha hb _ hs =>
    exact .action he hr ha (ReflTransGen.mono (fun _ _ hxy => visitedActions_sub hxy) _ _ hb) hs
  | forBody he hr ha hb hc hd hs =>
    have hfor := ReflTransGen.mono (fun _ _ hxy => visitedActions_sub hxy) _ _ hb
    exact .action he hr ha (hfor.trans (.head hc hd)) hs
  | whereError he hr hw ha => exact .whereError he hr hw ha
  | phaseWhere he hr hp hw ha => exact .phaseWhere he hr hp hw ha
  | fromClause he hr hf ha => exact .fromClause he hr hf ha
  | default he hm hd => exact .default he hm hd
  | constant he hc => exact .constant he hc
  | libraryFn hl hf => exact .libraryFn hl hf
  | libraryConstant hl hc => exact .libraryConstant hl hc

/-! ### What the gate guarantees -/

/-- The gate was run on the site and reported no error. -/
def Passed (deterministic : Bool) (s : Site) : Prop :=
  ∃ at_, NoErrors ((checkEvmCompatExpr at_ deterministic).walk s)

theorem checkEvmEntity_of_noErrors {program : Program} {det : Bool} {entity : Entity}
    (h : NoErrors (checkEvmTargetCompatWith program det)) (he : entity ∈ program.entities) :
    NoErrors (checkEvmEntity det program entity) := by
  simp only [checkEvmTargetCompatWith, noErrors_append] at h
  exact noErrors_flatMap.mp h.1.2 entity he

theorem checkEvmRoute_of_noErrors {program : Program} {det : Bool} {entity : Entity} {route : Route}
    (h : NoErrors (checkEvmTargetCompatWith program det)) (he : entity ∈ program.entities)
    (hr : route ∈ entity.routes) : NoErrors (checkEvmRoute det program entity route) := by
  have hentity := checkEvmEntity_of_noErrors h he
  simp only [checkEvmEntity, noErrors_append] at hentity
  exact noErrors_flatMap.mp hentity.1.1.1 route hr

/-- An action the gate descends to has passed, one expression after the other. -/
theorem passed_of_visited {program : Program} {det : Bool} {entity : Entity} {route : Route}
    {a b : RouteAction} {s : Site} (h : NoErrors (checkEvmRoute det program entity route))
    (ha : a ∈ route.body.allActions) (hb : ReflTransGen (fun x y => y ∈ visitedActions x) a b)
    (hs : s ∈ (gatedExprs b).map valueSite) : Passed det s := by
  simp only [checkEvmRoute, noErrors_append] at h
  have hwalk := noErrors_flatMap.mp h.1.2 a ha
  refine ⟨atRoute entity.name route.name, fun d hd => hwalk d ?_⟩
  refine (checkEvmCompatActions _ det _).mem_walk.mpr ⟨b, hb, ?_⟩
  simp only [checkEvmCompatActions, List.mem_append, List.mem_flatMap]
  exact Or.inl (Or.inr ⟨s, hs, hd⟩)

/-- Every emitted position is outside the gate or has passed it. -/
theorem EmittedSite.ungated_or_passed {program : Program} {det : Bool} {s : Site}
    (h : NoErrors (checkEvmTargetCompatWith program det)) (hs : EmittedSite program s) :
    UngatedSite program s ∨ Passed det s := by
  cases hs with
  | action he hr ha hb hs =>
    rcases path_split (V := fun x y => y ∈ visitedActions x) hb with hall | ⟨x, y, hpre, hxy, hnv, hpost⟩
    · have hreach := ReflTransGen.mono (fun _ _ hxy => hxy.2) _ _ hall
      rcases mem_gated_or_skips hs with hgated | hskip
      · exact Or.inr (passed_of_visited (checkEvmRoute_of_noErrors h he hr) ha hreach hgated)
      · exact Or.inl (.action he hr ha hreach hskip hs)
    · obtain ⟨pattern, iter, body, rfl, hy⟩ := exists_for_of_not_visited hxy hnv
      have hreach := ReflTransGen.mono (fun _ _ hxy => hxy.2) _ _ hpre
      exact Or.inl (.forBody he hr ha hreach hy hpost hs)
  | whereCondition he hr hw =>
    have hroute := checkEvmRoute_of_noErrors h he hr
    simp only [checkEvmRoute, noErrors_append] at hroute
    exact Or.inr ⟨_, noErrors_flatMap.mp hroute.2 _ hw⟩
  | transform he hm ht =>
    have hentity := checkEvmEntity_of_noErrors h he
    simp only [checkEvmEntity, noErrors_append] at hentity
    exact Or.inr ⟨_, noErrors_flatMap.mp (noErrors_flatMap.mp hentity.1.1.2 _ hm) _ ht⟩
  | macroBody he hm =>
    have hentity := checkEvmEntity_of_noErrors h he
    simp only [checkEvmEntity, noErrors_append] at hentity
    exact Or.inr ⟨_, noErrors_flatMap.mp hentity.2 _ hm⟩
  | pureFn hf =>
    simp only [checkEvmTargetCompatWith, noErrors_append] at h
    exact Or.inr ⟨_, noErrors_flatMap.mp h.2 _ hf⟩
  | whereError he hr hw ha => exact Or.inl (.whereError he hr hw ha)
  | phaseWhere he hr hp hw ha => exact Or.inl (.phaseWhere he hr hp hw ha)
  | fromClause he hr hf ha => exact Or.inl (.fromClause he hr hf ha)
  | default he hm hd => exact Or.inl (.default he hm hd)
  | constant he hc => exact Or.inl (.constant he hc)
  | libraryFn hl hf => exact Or.inl (.libraryFn hl hf)
  | libraryConstant hl hc => exact Or.inl (.libraryConstant hl hc)

/-- **When an accepted program is free of rejected forms**: exactly when the
    positions outside the gate are, and the arguments of supported `std::` and
    `evm::` calls. -/
theorem evmGate_complete_iff (program : Program) (det : Bool)
    (h : NoErrors (checkEvmTargetCompatWith program det)) :
    (∀ s, EmittedSite program s → ¬ HasRejected det s) ↔
      (∀ s, UngatedSite program s → ¬ HasRejected det s) ∧
        ∀ s, EmittedSite program s → ¬ HasRejectedInCallArgs det s := by
  constructor
  · intro hclean
    exact ⟨fun s hs => hclean s hs.emitted, fun s hs hrej => hclean s hs hrej.hasRejected⟩
  · rintro ⟨hungated, hargs⟩ s hs hrej
    rcases hs.ungated_or_passed h with hout | ⟨at_, hpass⟩
    · exact hungated s hout hrej
    · exact hargs s hs ((hasRejected_iff hpass).mp hrej)

/-- `var price = get(msg::pubkey) ~> m_oracle;` in the only route of an entity. -/
def pubkeyInVarCall : Program where
  imports := []
  pureFns := []
  typeAliases := []
  records := []
  enums := []
  entities := [{
    name := "Vault"
    records := []
    enums := []
    typeAliases := []
    constants := []
    macros := []
    routes := [{
      name := "settle"
      params := []
      fromClauses := []
      whereClauses := []
      returnType := none
      body := .unphased [.varCall "price" "get" [.msgField "pubkey"] (.ident "m_oracle") none]
      isView := false
      isPure := false
      isInit := false
      isAccept := false
      isPrivate := false
      recoverTag := none
      factoryOnly := false }]
    members := [{
      name := "m_oracle"
      ty := .simple "address"
      isIdentity := true
      defaultValue := none
      transforms := [] }] }]
  externEntities := []
  libraries := []

/-- The gate accepts the program although it emits `msg::pubkey`. -/
theorem pubkeyInVarCall_accepted :
    NoErrors (checkEvmTargetCompatWith pubkeyInVarCall false) ∧
      ∃ s, EmittedSite pubkeyInVarCall s ∧ HasRejected false s := by
  refine ⟨by decide, valueSite (.msgField "pubkey"), ?_, valueSite (.msgField "pubkey"), .refl, by decide⟩
  exact .action List.mem_cons_self List.mem_cons_self List.mem_cons_self .refl List.mem_cons_self

theorem evmGate_complete_iff_vault :
    NoErrors (checkEvmTargetCompatWith pubkeyInVarCall true) ∧
      ((∀ s, EmittedSite pubkeyInVarCall s → ¬ HasRejected true s) ↔
        (∀ s, UngatedSite pubkeyInVarCall s → ¬ HasRejected true s) ∧
          ∀ s, EmittedSite pubkeyInVarCall s → ¬ HasRejectedInCallArgs true s) :=
  ⟨by decide, evmGate_complete_iff pubkeyInVarCall true (by decide)⟩

end CambrianLang.Validate
