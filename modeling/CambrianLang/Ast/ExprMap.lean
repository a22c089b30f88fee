/-
  **Rewriting the expressions of a program** (`map_expr` and its companions in
  `ast.rs`, and the walks of `using_rewrite.rs`, which descend in the same way).

  The walks over route bodies and test steps take the function they apply to an
  expression as a parameter, so that every pass that rewrites expressions is an
  instance of them.
-/
import CambrianLang.Ast.Authored
import CambrianLang.Lib.BottomUp

namespace CambrianLang.Authored

open Ast BottomUp

variable {f g h : Expr → Expr}

/-! ### Expressions -/

/-- A function applied to the second components. -/
def onValues {κ : Type} (g : Expr → Expr) (fields : List (κ × Expr)) : List (κ × Expr) :=
  fields.map fun field => (field.1, g field.2)

/-- A function applied to the immediate subexpressions. -/
def mapChildren (g : Expr → Expr) : Expr → Expr
  | .binOp l op r => .binOp (g l) op (g r)
  | .unaryOp op e => .unaryOp op (g e)
  | .fieldAccess e field => .fieldAccess (g e) field
  | .index b k => .index (g b) (g k)
  | .methodCall b method args => .methodCall (g b) method (args.map g)
  | .fnCall name args => .fnCall name (args.map g)
  | .ifE c t e => .ifE (g c) (g t) (e.map g)
  | .letE p v b => .letE p (g v) (g b)
  | .block items => .block (items.map g)
  | .recordConstruct name fields => .recordConstruct name (onValues g fields)
  | .recordUpdate b fields => .recordUpdate (g b) (onValues g fields)
  | .closure params body => .closure params (g body)
  | .cast e ty => .cast (g e) ty
  | .tuple elems => .tuple (elems.map g)
  | .matchE e arms => .matchE (g e) (onValues g arms)
  | .enumVariantWithData enum variant args => .enumVariantWithData enum variant (args.map g)
  | .someE e => .someE (g e)
  | .range lo hi => .range (g lo) (g hi)
  | .forE p iter body => .forE p (g iter) (g body)
  | .namespacedCall ns name args tys => .namespacedCall ns name (args.map g) tys
  | .addressOf entity args ws => .addressOf entity (args.map g) (onValues g ws)
  | .encode ty value => .encode ty (g value)
  | .arrayLit elems => .arrayLit (elems.map g)
  | .macroRef name args => .macroRef name (args.map g)
  | e => e

mutual
/-- `map_expr`: `f` applied to every node, subexpressions first. -/
def mapExpr (f : Expr → Expr) : Expr → Expr
  | .binOp l op r => f (.binOp (mapExpr f l) op (mapExpr f r))
  | .unaryOp op e => f (.unaryOp op (mapExpr f e))
  | .fieldAccess e field => f (.fieldAccess (mapExpr f e) field)
  | .index b k => f (.index (mapExpr f b) (mapExpr f k))
  | .methodCall b method args => f (.methodCall (mapExpr f b) method (mapExprs f args))
  | .fnCall name args => f (.fnCall name (mapExprs f args))
  | .ifE c t e => f (.ifE (mapExpr f c) (mapExpr f t) (mapOption f e))
  | .letE p v b => f (.letE p (mapExpr f v) (mapExpr f b))
  | .block items => f (.block (mapExprs f items))
  | .recordConstruct name fields => f (.recordConstruct name (mapFields f fields))
  | .recordUpdate b fields => f (.recordUpdate (mapExpr f b) (mapFields f fields))
  | .closure params body => f (.closure params (mapExpr f body))
  | .cast e ty => f (.cast (mapExpr f e) ty)
  | .tuple elems => f (.tuple (mapExprs f elems))
  | .matchE e arms => f (.matchE (mapExpr f e) (mapArms f arms))
  | .enumVariantWithData enum variant args =>
    f (.enumVariantWithData enum variant (mapExprs f args))
  | .someE e => f (.someE (mapExpr f e))
  | .range lo hi => f (.range (mapExpr f lo) (mapExpr f hi))
  | .forE p iter body => f (.forE p (mapExpr f iter) (mapExpr f body))
  | .namespacedCall ns name args tys => f (.namespacedCall ns name (mapExprs f args) tys)
  | .addressOf entity args ws => f (.addressOf entity (mapExprs f args) (mapFields f ws))
  | .encode ty value => f (.encode ty (mapExpr f value))
  | .arrayLit elems => f (.arrayLit (mapExprs f elems))
  | .macroRef name args => f (.macroRef name (mapExprs f args))
  | .intLiteral v => f (.intLiteral v)
  | .stringLiteral v => f (.stringLiteral v)
  | .bytesLiteral v => f (.bytesLiteral v)
  | .boolLiteral v => f (.boolLiteral v)
  | .emptyCollection => f .emptyCollection
  | .ident name => f (.ident name)
  | .temporalRef name => f (.temporalRef name)
  | .msgField field => f (.msgField field)
  | .sysField field => f (.sysField field)
  | .traceField field => f (.traceField field)
  | .traceCall name route => f (.traceCall name route)
  | .enumVariant enum variant => f (.enumVariant enum variant)
  | .noneE => f .noneE
def mapExprs (f : Expr → Expr) : List Expr → List Expr
  | [] => []
  | e :: es => mapExpr f e :: mapExprs f es
def mapOption (f : Expr → Expr) : Option Expr → Option Expr
  | some e => some (mapExpr f e)
  | none => none
def mapFields (f : Expr → Expr) : List (String × Expr) → List (String × Expr)
  | [] => []
  | (name, e) :: fields => (name, mapExpr f e) :: mapFields f fields
def mapArms (f : Expr → Expr) : List (MatchPattern × Expr) → List (MatchPattern × Expr)
  | [] => []
  | (p, e) :: arms => (p, mapExpr f e) :: mapArms f arms
end

theorem mapExprs_eq (es : List Expr) : mapExprs f es = es.map (mapExpr f) := by
  induction es with
  | nil => rfl
  | cons e es ih => rw [mapExprs, ih, List.map_cons]

theorem mapOption_eq (e : Option Expr) : mapOption f e = e.map (mapExpr f) := by
  cases e <;> rfl

theorem mapFields_eq (fields : List (String × Expr)) :
    mapFields f fields = onValues (mapExpr f) fields := by
  induction fields with
  | nil => rfl
  | cons field fields ih => rw [mapFields, ih, onValues, onValues, List.map_cons]

theorem mapArms_eq (arms : List (MatchPattern × Expr)) :
    mapArms f arms = onValues (mapExpr f) arms := by
  induction arms with
  | nil => rfl
  | cons arm arms ih => rw [mapArms, ih, onValues, onValues, List.map_cons]

/-- `map_expr` is one step at the root after the subexpressions. -/
theorem mapExpr_eq (e : Expr) : mapExpr f e = f (mapChildren (mapExpr f) e) := by
  cases e <;>
    simp only [mapExpr, mapChildren, mapExprs_eq, mapOption_eq, mapFields_eq, mapArms_eq]

theorem children_mapChildren (g : Expr → Expr) (e : Expr) :
    (mapChildren g e).children = e.children.map g := by
  cases e with
  | ifE c t e => cases e <;> simp [mapChildren, Expr.children, Expr.parts, unbound]
  | _ => simp [mapChildren, Expr.children, Expr.parts, unbound, onValues, Function.comp_def]

theorem map_fixed {α : Type} {k : α → α} {xs : List α} (h : ∀ x ∈ xs, k x = x) :
    xs.map k = xs := (List.map_congr_left h).trans (List.map_id _)

theorem onValues_fixed {κ : Type} {fields : List (κ × Expr)}
    (h : ∀ field ∈ fields, g field.2 = field.2) : onValues g fields = fields :=
  map_fixed fun field hfield => by rw [h field hfield]

theorem mapChildren_fixed {e : Expr} (h : ∀ c ∈ e.children, g c = c) : mapChildren g e = e := by
  cases e with
  | ifE c t e =>
    cases e <;> simp_all [mapChildren, Expr.children, Expr.parts, unbound]
  | arrayLit es | macroRef _ es | fnCall _ es | block es | tuple es | enumVariantWithData _ _ es
  | namespacedCall _ _ es _ =>
    simp only [Expr.children, Expr.parts, List.map_map, Function.comp_def, unbound, List.map_id']
      at h
    simp only [mapChildren, map_fixed h]
  | methodCall b _ args =>
    simp only [Expr.children, Expr.parts, List.map_cons, List.map_map, Function.comp_def, unbound,
      List.map_id', List.forall_mem_cons] at h
    simp only [mapChildren, h.1, map_fixed h.2]
  | recordConstruct _ fields =>
    simp only [Expr.children, Expr.parts, List.map_map, Function.comp_def, unbound,
      List.forall_mem_map] at h
    simp only [mapChildren, onValues_fixed h]
  | recordUpdate b fields =>
    simp only [Expr.children, Expr.parts, List.map_cons, List.map_map, Function.comp_def, unbound,
      List.forall_mem_cons, List.forall_mem_map] at h
    simp only [mapChildren, h.1, onValues_fixed h.2]
  | matchE e arms =>
    simp only [Expr.children, Expr.parts, List.map_cons, List.map_map, Function.comp_def, unbound,
      List.forall_mem_cons, List.forall_mem_map] at h
    simp only [mapChildren, h.1, onValues_fixed h.2]
  | addressOf _ args ws =>
    simp only [Expr.children, Expr.parts, List.map_append, List.map_map, Function.comp_def, unbound,
      List.map_id', List.forall_mem_append, List.forall_mem_map] at h
    simp only [mapChildren, map_fixed h.1, onValues_fixed h.2]
  | _ => simp_all [mapChildren, Expr.children, Expr.parts, unbound]

/-- Expressions as trees. -/
def exprTree : Layered Expr where
  children := Expr.children
  mapChildren := mapChildren
  rank := Expr.rank
  rank_lt := rank_child_lt
  children_mapChildren := children_mapChildren
  mapChildren_fixed := mapChildren_fixed

theorem mapExpr_rewrites : exprTree.Rewrites f (mapExpr f) := mapExpr_eq

/-- `P` holds of every subexpression. -/
abbrev Everywhere (P : Expr → Prop) (e : Expr) : Prop := exprTree.Everywhere P e

/-! ### Actions -/

mutual
/-- `map_route_action`, `rewrite_action`: `g` applied to every expression of an action. -/
def mapAction (g : Expr → Expr) : RouteAction → RouteAction
  | .send message args dest opts => .send message (args.map g) (g dest) (opts.map g)
  | .conditional c thenActions elseActions =>
    .conditional (g c) (mapActions g thenActions) (mapActions g elseActions)
  | .ret values => .ret (values.map g)
  | .letA p value => .letA p (g value)
  | .effect ns name args => .effect ns name (args.map g)
  | .deploy entity opts args => .deploy entity (opts.map g) (args.map g)
  | .rescue tag action => .rescue tag (mapAction g action)
  | .throw code => .throw code
  | .throwCustom name args => .throwCustom name (args.map g)
  | .emit event args => .emit event (args.map g)
  | .callRoute name args => .callRoute name (args.map g)
  | .varCall name message args dest opts =>
    .varCall name message (args.map g) (g dest) (opts.map g)
  | .updateCode args callback callbackArgs =>
    .updateCode (args.map g) callback (callbackArgs.map g)
  | .forA p iter body => .forA p (g iter) (mapActions g body)
def mapActions (g : Expr → Expr) : List RouteAction → List RouteAction
  | [] => []
  | a :: as => mapAction g a :: mapActions g as
end

mutual
/-- The expressions of an action and of the actions nested in it. -/
def actionExprs : RouteAction → List Expr
  | .conditional c thenActions elseActions =>
    c :: (actionsExprs thenActions ++ actionsExprs elseActions)
  | .rescue _ action => actionExprs action
  | .forA _ iter body => iter :: actionsExprs body
  | .send _ args dest opts => args ++ dest :: opts.toList
  | .ret values => values
  | .letA _ value => [value]
  | .effect _ _ args => args
  | .deploy _ opts args => opts.toList ++ args
  | .throw _ => []
  | .throwCustom _ args => args
  | .emit _ args => args
  | .callRoute _ args => args
  | .varCall _ _ args dest opts => args ++ dest :: opts.toList
  | .updateCode args _ callbackArgs => args ++ callbackArgs
def actionsExprs : List RouteAction → List Expr
  | [] => []
  | a :: as => actionExprs a ++ actionsExprs as
end

theorem option_toList_map {α β : Type} (k : α → β) (x : Option α) :
    (x.map k).toList = x.toList.map k := by
  cases x <;> rfl

mutual
theorem actionExprs_map (g : Expr → Expr) : ∀ a : RouteAction,
    actionExprs (mapAction g a) = (actionExprs a).map g
  | .send .. | .ret _ | .letA .. | .effect .. | .deploy .. | .throw _ | .throwCustom .. | .emit ..
  | .callRoute .. | .varCall .. | .updateCode .. => by
    simp [mapAction, actionExprs, option_toList_map]
  | .conditional _ thenActions elseActions => by
    simp [mapAction, actionExprs, actionsExprs_map g thenActions, actionsExprs_map g elseActions]
  | .rescue _ action => by
    simp [mapAction, actionExprs, actionExprs_map g action]
  | .forA _ _ body => by
    simp [mapAction, actionExprs, actionsExprs_map g body]
theorem actionsExprs_map (g : Expr → Expr) : ∀ as : List RouteAction,
    actionsExprs (mapActions g as) = (actionsExprs as).map g
  | [] => rfl
  | a :: as => by
    simp [mapActions, actionsExprs, actionExprs_map g a, actionsExprs_map g as]
end

mutual
theorem mapAction_mapAction (g h : Expr → Expr) : ∀ a : RouteAction,
    mapAction g (mapAction h a) = mapAction (g ∘ h) a
  | .send .. | .ret _ | .letA .. | .effect .. | .deploy .. | .throw _ | .throwCustom .. | .emit ..
  | .callRoute .. | .varCall .. | .updateCode .. => by
    simp [mapAction]
  | .conditional _ thenActions elseActions => by
    simp [mapAction, mapActions_mapActions g h thenActions, mapActions_mapActions g h elseActions]
  | .rescue _ action => by
    simp [mapAction, mapAction_mapAction g h action]
  | .forA _ _ body => by
    simp [mapAction, mapActions_mapActions g h body]
theorem mapActions_mapActions (g h : Expr → Expr) : ∀ as : List RouteAction,
    mapActions g (mapActions h as) = mapActions (g ∘ h) as
  | [] => rfl
  | a :: as => by
    simp [mapActions, mapAction_mapAction g h a, mapActions_mapActions g h as]
end

/-- The condition of a `where` clause; its error arguments are passed over. -/
def mapWhereClause (g : Expr → Expr) (wc : WhereClause) : WhereClause :=
  { wc with condition := g wc.condition }

def mapPhase (g : Expr → Expr) (phase : PhaseBlock) : PhaseBlock :=
  { phase with
    whereClauses := phase.whereClauses.map (mapWhereClause g)
    actions := mapActions g phase.actions }

/-- `map_route_body`, `rewrite_route_body`. -/
def mapRouteBody (g : Expr → Expr) : RouteBody → RouteBody
  | .unphased actions => .unphased (mapActions g actions)
  | .phased phases => .phased (phases.map (mapPhase g))
  | .mixed phases actions => .mixed (phases.map (mapPhase g)) (mapActions g actions)

theorem mapRouteBody_mapRouteBody (g h : Expr → Expr) (body : RouteBody) :
    mapRouteBody g (mapRouteBody h body) = mapRouteBody (g ∘ h) body := by
  cases body <;> simp [mapRouteBody, mapPhase, mapWhereClause, mapActions_mapActions]

/-! ### Test steps -/

/-- `map_test_effect`. -/
def mapTestEffect (g : Expr → Expr) : TestEffect → TestEffect
  | .send message args dest opts => .send message (args.map g) (g dest) (opts.map g)
  | .deploy entity opts => .deploy entity (opts.map g)
  | .platformEffect name args => .platformEffect name (args.map g)

def mapTestEffectElement (g : Expr → Expr) : TestEffectElement → TestEffectElement
  | .effect e => .effect (mapTestEffect g e)
  | .wildcard => .wildcard

/-- `map_test_step`.  The paths of `expect` steps are passed over, with the index
    expressions in them. -/
def mapTestStep (g : Expr → Expr) : TestStep → TestStep
  | .setContext ns fields => .setContext ns (onValues g fields)
  | .setRegistry entity codeHash codeDepth wasmHash =>
    .setRegistry entity (g codeHash) (g codeDepth) (g wasmHash)
  | .letS name ty value => .letS name ty (g value)
  | .call target route args => .call target route (args.map g)
  | .expectState fields => .expectState (onValues g fields)
  | .expectThrow code => .expectThrow code
  | .expectReturn value => .expectReturn (g value)
  | .expectReturnTuple values => .expectReturnTuple (values.map g)
  | .expectReturnLens path value => .expectReturnLens path (g value)
  | .expectPred cond => .expectPred (g cond)
  | .expectEffects elements => .expectEffects (elements.map (mapTestEffectElement g))
  | .expectEmit event args => .expectEmit event (args.map g)
  | .assume cond => .assume (g cond)
  | .bound var lo hi inclusive => .bound var (g lo) (g hi) inclusive
  | .skipIf cond => .skipIf (g cond)
  | .advanceTime secs => .advanceTime (g secs)
  | .deployPeer binding entity args initState =>
    .deployPeer binding entity (args.map g) (onValues g initState)

/-- The index expressions in the paths of a step. -/
def pathIndices : TestStep → List Expr
  | .expectState fields => fields.flatMap fun field => field.1.flatMap PathSegment.exprs
  | .expectReturnLens path _ => path.flatMap PathSegment.exprs
  | _ => []

/-- The expressions of a step outside its paths. -/
def stepValues : TestStep → List Expr
  | .expectState fields => fields.map Prod.snd
  | .expectReturnLens _ value => [value]
  | step => step.exprs

theorem map_snd_onValues {κ : Type} (g : Expr → Expr) (fields : List (κ × Expr)) :
    (onValues g fields).map Prod.snd = (fields.map Prod.snd).map g := by
  simp [onValues]

theorem elementExprs_map (g : Expr → Expr) (element : TestEffectElement) :
    (mapTestEffectElement g element).exprs = element.exprs.map g := by
  rcases element with (_ | _ | _) | _ <;>
    simp [mapTestEffectElement, mapTestEffect, TestEffectElement.exprs, option_toList_map]

theorem stepValues_map (g : Expr → Expr) (step : TestStep) :
    stepValues (mapTestStep g step) = (stepValues step).map g := by
  cases step with
  | expectEffects elements =>
    simp [mapTestStep, stepValues, TestStep.exprs, List.flatMap_map, List.map_flatMap,
      elementExprs_map]
  | _ => simp [mapTestStep, stepValues, TestStep.exprs, map_snd_onValues]

theorem pathIndices_map (g : Expr → Expr) (step : TestStep) :
    pathIndices (mapTestStep g step) = pathIndices step := by
  cases step <;> simp [mapTestStep, pathIndices, onValues, List.flatMap_map]

theorem onValues_onValues {κ : Type} (g h : Expr → Expr) (fields : List (κ × Expr)) :
    onValues g (onValues h fields) = onValues (g ∘ h) fields := by
  simp [onValues]

theorem mapTestEffectElement_comp (g h : Expr → Expr) (element : TestEffectElement) :
    mapTestEffectElement g (mapTestEffectElement h element) =
      mapTestEffectElement (g ∘ h) element := by
  rcases element with (_ | _ | _) | _ <;> simp [mapTestEffectElement, mapTestEffect]

theorem mapTestStep_mapTestStep (g h : Expr → Expr) (step : TestStep) :
    mapTestStep g (mapTestStep h step) = mapTestStep (g ∘ h) step := by
  cases step <;> simp [mapTestStep, onValues_onValues, mapTestEffectElement_comp]

end CambrianLang.Authored
