/-
  **Scoping of var-call results** (`check_var_call_scoping`).

  `var x = f() ~> dest;` binds `x` for the phases after the one it stands in.  The
  check collects the vars of a route and walks member transforms, phase wheres
  and route wheres for identifiers it must not find there.  Each of its walkers
  descends into some constructors only; the main result says exactly which
  occurrences decide whether a program it accepts is well scoped.
-/
import CambrianLang.Ast.Entity
import CambrianLang.Validate.Diagnostic

namespace CambrianLang.Validate

open Ast Traversal Relation

/-! ### Collecting the vars of a route -/

mutual
/-- `collect_var_names_in_action`. -/
def collectVarNamesInAction : RouteAction → List String
  | .varCall name _ _ _ _ => [name]
  | .conditional _ thenActions elseActions =>
      collectVarNames thenActions ++ collectVarNames elseActions
  | .rescue _ action => collectVarNamesInAction action
  | _ => []
def collectVarNames : List RouteAction → List String
  | [] => []
  | a :: as => collectVarNamesInAction a ++ collectVarNames as
end

/-- `collect_var_defs_up_to_phase`. -/
def collectVarDefsUpToPhase (route : Route) (targetPhase : String) : List String :=
  match route.body with
  | .phased phases =>
      (phases.takeWhile fun phase => phase.name ≠ targetPhase).flatMap
        fun phase => collectVarNames phase.actions
  | .unphased _ | .mixed _ _ => []

/-- What `collect_var_defs_and_check` does at `var name = ..`: the diagnostics V25,
    and the list of vars extended. -/
def defineVar (entity : Entity) (route : Route) (name : String) :
    List String × List Diagnostic → List String × List Diagnostic
  | (definedVars, diags) =>
    let ctx := entity.name ++ "." ++ route.name
    let diags := if route.params.any (fun p => p.name == name) then
        diags ++ [.error "V25" ("var '" ++ name ++ "' in " ++ ctx ++ " shadows route parameter '" ++
          name ++ "'")]
      else diags
    let diags := if entity.members.any (fun m => m.name == name) then
        diags ++ [.error "V25" ("var '" ++ name ++ "' in " ++ ctx ++ " shadows state member '" ++
          name ++ "'")]
      else diags
    let diags := if definedVars.contains name then
        diags ++ [.error "V25" ("duplicate var '" ++ name ++ "' in " ++ ctx)]
      else diags
    (definedVars ++ [name], diags)

mutual
/-- `collect_var_defs_and_check`, on the defined vars and the diagnostics so far. -/
def collectVarDefsAndCheck (entity : Entity) (route : Route) :
    RouteAction → List String × List Diagnostic → List String × List Diagnostic
  | .varCall name _ _ _ _, st => defineVar entity route name st
  | .conditional _ thenActions elseActions, st =>
      collectVarDefsAndCheckAll entity route elseActions
        (collectVarDefsAndCheckAll entity route thenActions st)
  | .rescue _ action, st => collectVarDefsAndCheck entity route action st
  | _, st => st
def collectVarDefsAndCheckAll (entity : Entity) (route : Route) :
    List RouteAction → List String × List Diagnostic → List String × List Diagnostic
  | [], st => st
  | a :: as, st =>
      collectVarDefsAndCheckAll entity route as (collectVarDefsAndCheck entity route a st)
end

/-! ### The three walkers -/

/-- The constructors all three walkers descend into. -/
def visitedInWhere : Expr → List Expr
  | .binOp l _ r => [l, r]
  | .unaryOp _ e | .fieldAccess e _ | .cast e _ | .someE e => [e]
  | .index b i => [b, i]
  | .methodCall b _ args => b :: args
  | .fnCall _ args | .macroRef _ args => args
  | .ifE c t e => c :: t :: e.toList
  | _ => []

/-- `check_var_refs_in_expr` also descends into `let`, blocks and record fields. -/
def visitedInTransform : Expr → List Expr
  | .letE _ v b => [v, b]
  | .block items => items
  | .recordConstruct _ fields | .recordUpdate _ fields => fields.map Prod.snd
  | e => visitedInWhere e

/-- The report at an identifier: `diag x` when `x` is a var that is not allowed. -/
def forbiddenVar (allVarNames allowed : List String) (diag : String → Diagnostic) :
    Expr → List Diagnostic
  | .ident name =>
      if allVarNames.contains name && !allowed.contains name then [diag name] else []
  | _ => []

theorem visitedInWhere_sub {a b : Expr} (h : b ∈ visitedInWhere a) : b ∈ a.children := by
  cases a with
  | binOp | unaryOp | fieldAccess | cast | someE | index | methodCall | fnCall | macroRef | ifE =>
    simpa [visitedInWhere, Expr.children, Expr.parts, unbound] using h
  | _ => exact absurd h List.not_mem_nil

theorem visitedInTransform_sub {a b : Expr} (h : b ∈ visitedInTransform a) : b ∈ a.children := by
  cases a with
  | letE | block | recordConstruct =>
    simpa [visitedInTransform, Expr.children, Expr.parts, unbound] using h
  | recordUpdate base fields =>
    have hfield : b ∈ fields.map Prod.snd := h
    simp only [Expr.children, Expr.parts, unbound, List.map_cons, List.map_map, List.mem_cons]
    exact Or.inr hfield
  | _ => exact visitedInWhere_sub h

/-- `check_var_refs_in_expr`. -/
def checkVarRefsInExpr (allVarNames allowed : List String) (entityName routeName memberName : String) :
    Walker Expr Diagnostic where
  own := forbiddenVar allVarNames allowed fun name =>
    .error "V26" ("var '" ++ name ++ "' referenced in member '" ++ memberName ++
      "' transform for route '" ++ routeName ++ "' in entity '" ++ entityName ++
      "' is not available at this point (defined in same or later phase, or in unphased route)")
  visited := visitedInTransform
  rank := Expr.rank
  rank_lt h := rank_child_lt (visitedInTransform_sub h)

/-- `check_phase_where_var_refs`. -/
def checkPhaseWhereVarRefs (allVarNames allowed : List String)
    (entityName routeName phaseName : String) : Walker Expr Diagnostic where
  own := forbiddenVar allVarNames allowed fun name =>
    .error "V28" ("var '" ++ name ++ "' referenced in per-phase 'where' clause of phase '" ++
      phaseName ++ "' in " ++ entityName ++ "." ++ routeName ++
      " is not available at this point (defined in same or later phase). " ++
      "Per-phase wheres may only reference vars defined in STRICTLY EARLIER phases.")
  visited := visitedInWhere
  rank := Expr.rank
  rank_lt h := rank_child_lt (visitedInWhere_sub h)

/-- `check_route_where_no_var_refs`. -/
def checkRouteWhereNoVarRefs (allVarNames : List String) (entityName routeName : String) :
    Walker Expr Diagnostic where
  own := forbiddenVar allVarNames [] fun name =>
    .error "V27" ("where clauses on " ++ entityName ++ "." ++ routeName ++
      " cannot reference var '" ++ name ++
      "' (vars are not yet defined when route-level wheres run); use a per-phase where on a later " ++
      "phase, or a conditional throw inside the var-defining phase.")
  visited := visitedInWhere
  rank := Expr.rank
  rank_lt h := rank_child_lt (visitedInWhere_sub h)

/-! ### The check -/

/-- The vars a transform of the route may read. -/
def allowedInTransform (route : Route) (transform : MemberTransform) : List String :=
  match transform.phase with
  | some phase => collectVarDefsUpToPhase route phase
  | none => []

/-- Part (a) of the check: member transforms. -/
def checkTransforms (entity : Entity) (route : Route) (allVarNames : List String) :
    List Diagnostic :=
  entity.members.flatMap fun member =>
    (member.transforms.filter fun t => t.routeName == route.name).flatMap fun transform =>
      (checkVarRefsInExpr allVarNames (allowedInTransform route transform) entity.name route.name
        member.name).walk transform.body

/-- Part (b): per-phase where clauses. -/
def checkPhaseWheres (entity : Entity) (route : Route) (allVarNames : List String) :
    List Diagnostic :=
  route.body.phaseBlocks.flatMap fun phase =>
    phase.whereClauses.flatMap fun wc =>
      (checkPhaseWhereVarRefs allVarNames (collectVarDefsUpToPhase route phase.name) entity.name
        route.name phase.name).walk wc.condition

/-- Part (c): route-level where clauses. -/
def checkRouteWheres (entity : Entity) (route : Route) (allVarNames : List String) :
    List Diagnostic :=
  route.whereClauses.flatMap fun wc =>
    (checkRouteWhereNoVarRefs allVarNames entity.name route.name).walk wc.condition

/-- The body of the loop of `check_var_call_scoping`. -/
def checkRouteVarScoping (entity : Entity) (route : Route) : List Diagnostic :=
  let (definedVars, diags) := collectVarDefsAndCheckAll entity route route.body.allActions ([], [])
  if definedVars.isEmpty then diags
  else diags ++ checkTransforms entity route definedVars ++
    checkPhaseWheres entity route definedVars ++ checkRouteWheres entity route definedVars

/-- `check_var_call_scoping`. -/
def checkVarCallScoping (entity : Entity) : List Diagnostic :=
  entity.routes.flatMap (checkRouteVarScoping entity)

/-! ### What the check should guarantee -/

/-- An action of the list, or one nested in it, is `var x = ..`. -/
def DefinesVar (x : String) (actions : List RouteAction) : Prop :=
  ∃ a ∈ actions, ∃ message args dest opts, Subaction a (.varCall x message args dest opts)

/-- `x` is defined in a phase that comes before every phase the transform is tagged with. -/
def DefinedBeforeTransform (route : Route) (transform : MemberTransform) (x : String) : Prop :=
  ∃ before phase after, route.body.phaseBlocks = before ++ phase :: after ∧
    transform.phase = some phase.name ∧ (∀ q ∈ before, q.name ≠ phase.name) ∧
    DefinesVar x (before.flatMap PhaseBlock.actions)

/-- The given reads of vars of the route find an earlier definition: those in
    transforms and phase wheres one in an earlier phase, and those in route wheres
    are not there at all. -/
structure VarsInOrder (entity : Entity) (route : Route)
    (readInTransform : String → MemberTransform → Prop) (readInWhere : String → Expr → Prop) :
    Prop where
  transform : ∀ member ∈ entity.members, ∀ t ∈ member.transforms, t.routeName = route.name →
    ∀ x, readInTransform x t → DefinedBeforeTransform route t x
  phaseWhere : ∀ before phase after, route.body.phaseBlocks = before ++ phase :: after →
    ∀ wc ∈ phase.whereClauses, ∀ x, readInWhere x wc.condition →
      DefinesVar x (before.flatMap PhaseBlock.actions)
  routeWhere : ∀ wc ∈ route.whereClauses, ∀ x, ¬ readInWhere x wc.condition

/-- A free occurrence of a var of the route. -/
def ReadsVar (route : Route) (x : String) (e : Expr) : Prop :=
  DefinesVar x route.body.allActions ∧ OccursFree x e

/-- Var scoping is sound: every free occurrence of a var of the route is in order. -/
def VarScopingSound (entity : Entity) : Prop :=
  ∀ route ∈ entity.routes, VarsInOrder entity route
    (fun x t => x ∉ patternNames t.params ∧ ReadsVar route x t.body) (ReadsVar route)

/-- A free occurrence that the check does not see: of a collected var, in a
    position its walker skips; or of a var defined inside an action `for` only. -/
def HiddenRead (visited : Expr → List Expr) (route : Route) (x : String) (e : Expr) : Prop :=
  if x ∈ collectVarNames route.body.allActions then OccursSkipped visited x e
  else ReadsVar route x e

/-- The phase the transform is tagged with is not a phase of the route. -/
def UnknownPhase (route : Route) (transform : MemberTransform) : Prop :=
  ∃ tag, transform.phase = some tag ∧ ∀ phase ∈ route.body.phaseBlocks, phase.name ≠ tag

/-- The occurrences the check does not see are in order. -/
def HiddenReadsInOrder (entity : Entity) : Prop :=
  ∀ route ∈ entity.routes, VarsInOrder entity route
    (fun x t => x ∉ patternNames t.params ∧
      (HiddenRead visitedInTransform route x t.body ∨
        UnknownPhase route t ∧ ReadsVar route x t.body))
    (HiddenRead visitedInWhere route)

/-! ### What the check does guarantee -/

mutual
theorem collectVarDefsAndCheck_fst (entity : Entity) (route : Route) :
    ∀ (a : RouteAction) (st : List String × List Diagnostic),
      (collectVarDefsAndCheck entity route a st).1 = st.1 ++ collectVarNamesInAction a
  | .varCall name _ _ _ _, st => by
    simp only [collectVarDefsAndCheck, defineVar, collectVarNamesInAction]
  | .conditional _ thenActions elseActions, st => by
    simp only [collectVarDefsAndCheck, collectVarNamesInAction,
      collectVarDefsAndCheckAll_fst entity route, List.append_assoc]
  | .rescue _ action, st => by
    simp only [collectVarDefsAndCheck, collectVarNamesInAction,
      collectVarDefsAndCheck_fst entity route action]
  | .send .., st | .ret _, st | .letA .., st | .effect .., st | .deploy .., st | .throw _, st
  | .throwCustom .., st | .emit .., st | .callRoute .., st | .updateCode .., st | .forA .., st => by
    simp only [collectVarDefsAndCheck, collectVarNamesInAction, List.append_nil]
theorem collectVarDefsAndCheckAll_fst (entity : Entity) (route : Route) :
    ∀ (as : List RouteAction) (st : List String × List Diagnostic),
      (collectVarDefsAndCheckAll entity route as st).1 = st.1 ++ collectVarNames as
  | [], st => by simp only [collectVarDefsAndCheckAll, collectVarNames, List.append_nil]
  | a :: as, st => by
    simp only [collectVarDefsAndCheckAll, collectVarNames,
      collectVarDefsAndCheckAll_fst entity route as, collectVarDefsAndCheck_fst entity route a,
      List.append_assoc]
end

theorem DefinesVar.mono {x : String} {as bs : List RouteAction} (h : DefinesVar x as)
    (hsub : ∀ a ∈ as, a ∈ bs) : DefinesVar x bs := by
  obtain ⟨a, ha, hdef⟩ := h
  exact ⟨a, hsub a ha, hdef⟩

/-- A var nested in an action of the list is a var of the list. -/
theorem DefinesVar.of_children {x : String} {a : RouteAction} {as : List RouteAction} (ha : a ∈ as)
    (h : DefinesVar x a.children) : DefinesVar x as := by
  obtain ⟨b, hb, message, args, dest, opts, hsub⟩ := h
  exact ⟨a, ha, message, args, dest, opts, ReflTransGen.head hb hsub⟩

mutual
theorem collectVarNamesInAction_sound {x : String} :
    ∀ a : RouteAction, x ∈ collectVarNamesInAction a → DefinesVar x [a]
  | .varCall name message args dest opts, h => by
    simp only [collectVarNamesInAction, List.mem_singleton] at h
    subst h
    exact ⟨_, List.mem_singleton_self _, message, args, dest, opts, .refl⟩
  | .conditional c thenActions elseActions, h => by
    simp only [collectVarNamesInAction, List.mem_append] at h
    apply DefinesVar.of_children (List.mem_singleton_self _)
    rcases h with hthen | helse
    · exact (collectVarNames_sound thenActions hthen).mono fun a ha =>
        List.mem_append.mpr (Or.inl ha)
    · exact (collectVarNames_sound elseActions helse).mono fun a ha =>
        List.mem_append.mpr (Or.inr ha)
  | .rescue tag action, h => by
    simp only [collectVarNamesInAction] at h
    exact DefinesVar.of_children (List.mem_singleton_self _)
      (collectVarNamesInAction_sound action h)
  | .send .., h | .ret _, h | .letA .., h | .effect .., h | .deploy .., h | .throw _, h
  | .throwCustom .., h | .emit .., h | .callRoute .., h | .updateCode .., h | .forA .., h => by
    simp only [collectVarNamesInAction] at h
    exact absurd h List.not_mem_nil
theorem collectVarNames_sound {x : String} :
    ∀ as : List RouteAction, x ∈ collectVarNames as → DefinesVar x as
  | [], h => by
    simp only [collectVarNames] at h
    exact absurd h List.not_mem_nil
  | a :: as, h => by
    simp only [collectVarNames, List.mem_append] at h
    rcases h with ha | has
    · exact (collectVarNamesInAction_sound a ha).mono fun b hb => by
        rw [List.mem_singleton.mp hb]
        exact List.mem_cons_self
    · exact (collectVarNames_sound as has).mono fun b hb => List.mem_cons_of_mem _ hb
end

/-- The vars collected from a list of phases are defined in it. -/
theorem definesVar_of_mem_phases {x : String} {phases : List PhaseBlock}
    (h : x ∈ phases.flatMap fun phase => collectVarNames phase.actions) :
    DefinesVar x (phases.flatMap PhaseBlock.actions) := by
  obtain ⟨phase, hphase, hx⟩ := List.mem_flatMap.mp h
  exact (collectVarNames_sound _ hx).mono fun a ha => List.mem_flatMap.mpr ⟨phase, hphase, ha⟩

theorem mem_collectVarDefsUpToPhase {route : Route} {tag x : String}
    (h : x ∈ collectVarDefsUpToPhase route tag) :
    x ∈ (route.body.phaseBlocks.takeWhile fun phase => phase.name ≠ tag).flatMap
      fun phase => collectVarNames phase.actions := by
  unfold collectVarDefsUpToPhase at h
  split at h
  · next hbody => rwa [hbody]
  · exact absurd h List.not_mem_nil
  · exact absurd h List.not_mem_nil

/-- The phases before the first one with a name, split off. -/
theorem exists_takeWhile_split {phases : List PhaseBlock} {tag : String}
    (h : ∃ phase ∈ phases, phase.name = tag) : ∃ phase after,
      phases = (phases.takeWhile fun p => p.name ≠ tag) ++ phase :: after ∧ phase.name = tag := by
  induction phases with
  | nil =>
    obtain ⟨phase, hmem, -⟩ := h
    exact absurd hmem List.not_mem_nil
  | cons p ps ih =>
    by_cases hp : p.name = tag
    · exact ⟨p, ps, by simp [hp], hp⟩
    · obtain ⟨phase, hmem, hname⟩ := h
      have hps : ∃ phase ∈ ps, phase.name = tag := by
        rcases List.mem_cons.mp hmem with rfl | hin
        · exact absurd hname hp
        · exact ⟨phase, hin, hname⟩
      obtain ⟨q, after, hsplit, hq⟩ := ih hps
      refine ⟨q, after, ?_, hq⟩
      rw [List.takeWhile_cons_of_pos (by simpa using hp), List.cons_append, ← hsplit]

/-- What comes before the first phase with a name comes before any phase with it. -/
theorem mem_before_of_mem_takeWhile {before after : List PhaseBlock} {phase q : PhaseBlock}
    (h : q ∈ (before ++ phase :: after).takeWhile fun p => p.name ≠ phase.name) : q ∈ before := by
  induction before with
  | nil => simp at h
  | cons p ps ih =>
    by_cases hp : p.name = phase.name
    · simp [hp] at h
    · rw [List.cons_append, List.takeWhile_cons_of_pos (by simpa using hp)] at h
      rcases List.mem_cons.mp h with rfl | hin
      · exact List.mem_cons_self
      · exact List.mem_cons_of_mem _ (ih hin)

/-- An allowed var of a transform is defined before it, unless its phase is unknown. -/
theorem allowedInTransform_defined {route : Route} {t : MemberTransform} {x : String}
    (h : x ∈ allowedInTransform route t) : DefinedBeforeTransform route t x ∨ UnknownPhase route t := by
  unfold allowedInTransform at h
  split at h
  · next tag htag =>
    by_cases hknown : ∃ phase ∈ route.body.phaseBlocks, phase.name = tag
    · obtain ⟨phase, after, hsplit, rfl⟩ := exists_takeWhile_split hknown
      refine Or.inl ⟨_, phase, after, hsplit, htag, ?_, ?_⟩
      · intro q hq
        simpa using List.all_eq_true.mp List.all_takeWhile q hq
      · exact definesVar_of_mem_phases (mem_collectVarDefsUpToPhase h)
    · exact Or.inr ⟨tag, htag, fun phase hphase hname => hknown ⟨phase, hphase, hname⟩⟩
  · exact absurd h List.not_mem_nil

/-- An allowed var of a phase where is defined before that phase. -/
theorem allowedInPhase_defined {route : Route} {before after : List PhaseBlock} {phase : PhaseBlock}
    {x : String} (hsplit : route.body.phaseBlocks = before ++ phase :: after)
    (h : x ∈ collectVarDefsUpToPhase route phase.name) :
    DefinesVar x (before.flatMap PhaseBlock.actions) := by
  have hmem := mem_collectVarDefsUpToPhase h
  rw [hsplit] at hmem
  refine (definesVar_of_mem_phases hmem).mono ?_
  intro a ha
  obtain ⟨q, hq, haq⟩ := List.mem_flatMap.mp ha
  exact List.mem_flatMap.mpr ⟨q, mem_before_of_mem_takeWhile hq, haq⟩

/-- A walker of the check that reports no error reaches only allowed vars. -/
theorem allowed_of_reached {W : Walker Expr Diagnostic} {allVarNames allowed : List String}
    {diag : String → Diagnostic} (hown : W.own = forbiddenVar allVarNames allowed diag)
    (hdiag : ∀ name, (diag name).severity = .error) {e : Expr} {x : String}
    (h : NoErrors (W.walk e)) (hreach : W.Reaches e (.ident x)) (hx : x ∈ allVarNames) :
    x ∈ allowed := by
  by_contra hnot
  have hreport : diag x ∈ W.walk e := by
    refine W.mem_walk.mpr ⟨_, hreach, ?_⟩
    simp [hown, forbiddenVar, hx, hnot]
  exact h _ hreport (hdiag x)

/-- A free occurrence of a collected var is allowed or skipped. -/
theorem allowed_or_skipped {W : Walker Expr Diagnostic} {allVarNames allowed : List String}
    {diag : String → Diagnostic} (hown : W.own = forbiddenVar allVarNames allowed diag)
    (hdiag : ∀ name, (diag name).severity = .error) {e : Expr} {x : String}
    (h : NoErrors (W.walk e)) (hx : x ∈ allVarNames) (hocc : OccursFree x e) :
    x ∈ allowed ∨ OccursSkipped W.visited x e := by
  rcases hocc.reached_or_skipped W.visited with hreach | hskip
  · exact Or.inl (allowed_of_reached hown hdiag h hreach hx)
  · exact Or.inr hskip

/-- When a route has a collected var, all three parts of the check ran on it. -/
theorem checkRouteVarScoping_parts {entity : Entity} {route : Route} {x : String}
    (h : NoErrors (checkRouteVarScoping entity route))
    (hx : x ∈ collectVarNames route.body.allActions) :
    NoErrors (checkTransforms entity route (collectVarNames route.body.allActions)) ∧
    NoErrors (checkPhaseWheres entity route (collectVarNames route.body.allActions)) ∧
    NoErrors (checkRouteWheres entity route (collectVarNames route.body.allActions)) := by
  have hfst := collectVarDefsAndCheckAll_fst entity route route.body.allActions ([], [])
  have hne : (collectVarNames route.body.allActions).isEmpty = false :=
    List.isEmpty_eq_false_iff.mpr (List.ne_nil_of_mem hx)
  unfold checkRouteVarScoping at h
  simp only [hfst, List.nil_append, hne, Bool.false_eq_true, if_false, noErrors_append] at h
  exact ⟨h.1.1.2, h.1.2, h.2⟩

theorem VarsInOrder.mono {entity : Entity} {route : Route}
    {inTransform inTransform' : String → MemberTransform → Prop} {inWhere inWhere' : String → Expr → Prop}
    (h : VarsInOrder entity route inTransform inWhere)
    (ht : ∀ x t, inTransform' x t → inTransform x t) (hw : ∀ x e, inWhere' x e → inWhere x e) :
    VarsInOrder entity route inTransform' inWhere' where
  transform member hm t htm hname x hread := h.transform member hm t htm hname x (ht x t hread)
  phaseWhere before phase after hsplit wc hwc x hread :=
    h.phaseWhere before phase after hsplit wc hwc x (hw x _ hread)
  routeWhere wc hwc x hread := h.routeWhere wc hwc x (hw x _ hread)

theorem HiddenRead.readsVar {visited : Expr → List Expr} {route : Route} {x : String} {e : Expr}
    (h : HiddenRead visited route x e) : ReadsVar route x e := by
  unfold HiddenRead at h
  split at h
  · next hx => exact ⟨collectVarNames_sound _ hx, h.occursFree⟩
  · exact h

/-- The check answers for every read it sees. -/
theorem varsInOrder_of_hidden {entity : Entity} {route : Route}
    (hcheck : NoErrors (checkRouteVarScoping entity route))
    (hidden : VarsInOrder entity route
      (fun x t => x ∉ patternNames t.params ∧
        (HiddenRead visitedInTransform route x t.body ∨
          UnknownPhase route t ∧ ReadsVar route x t.body))
      (HiddenRead visitedInWhere route)) :
    VarsInOrder entity route (fun x t => x ∉ patternNames t.params ∧ ReadsVar route x t.body)
      (ReadsVar route) := by
  refine ⟨?_, ?_, ?_⟩
  · intro member hm t ht hname x ⟨hparam, hread⟩
    by_cases hx : x ∈ collectVarNames route.body.allActions
    · have hwalk := noErrors_flatMap.mp (checkRouteVarScoping_parts hcheck hx).1 member hm
      have hbody := noErrors_flatMap.mp hwalk t (List.mem_filter.mpr ⟨ht, by simpa using hname⟩)
      rcases allowed_or_skipped rfl (fun _ => rfl) hbody hx hread.2 with hallowed | hskip
      · rcases allowedInTransform_defined hallowed with hdef | hunknown
        · exact hdef
        · exact hidden.transform member hm t ht hname x ⟨hparam, Or.inr ⟨hunknown, hread⟩⟩
      · refine hidden.transform member hm t ht hname x ⟨hparam, Or.inl ?_⟩
        rw [HiddenRead, if_pos hx]
        exact hskip
    · refine hidden.transform member hm t ht hname x ⟨hparam, Or.inl ?_⟩
      rw [HiddenRead, if_neg hx]
      exact hread
  · intro before phase after hsplit wc hwc x hread
    by_cases hx : x ∈ collectVarNames route.body.allActions
    · have hphase : phase ∈ route.body.phaseBlocks := by
        rw [hsplit]
        exact List.mem_append.mpr (Or.inr List.mem_cons_self)
      have hwalk := noErrors_flatMap.mp (checkRouteVarScoping_parts hcheck hx).2.1 phase hphase
      have hcond := noErrors_flatMap.mp hwalk wc hwc
      rcases allowed_or_skipped rfl (fun _ => rfl) hcond hx hread.2 with hallowed | hskip
      · exact allowedInPhase_defined hsplit hallowed
      · refine hidden.phaseWhere before phase after hsplit wc hwc x ?_
        rw [HiddenRead, if_pos hx]
        exact hskip
    · refine hidden.phaseWhere before phase after hsplit wc hwc x ?_
      rw [HiddenRead, if_neg hx]
      exact hread
  · intro wc hwc x hread
    refine hidden.routeWhere wc hwc x ?_
    by_cases hx : x ∈ collectVarNames route.body.allActions
    · have hcond := noErrors_flatMap.mp (checkRouteVarScoping_parts hcheck hx).2.2 wc hwc
      rw [HiddenRead, if_pos hx]
      rcases allowed_or_skipped rfl (fun _ => rfl) hcond hx hread.2 with hallowed | hskip
      · exact absurd hallowed List.not_mem_nil
      · exact hskip
    · rw [HiddenRead, if_neg hx]
      exact hread

/-- **What an accepted entity owes to the check**: it is well scoped exactly when the
    occurrences the check does not see are in order. -/
theorem varScopingSound_iff (entity : Entity) (h : NoErrors (checkVarCallScoping entity)) :
    VarScopingSound entity ↔ HiddenReadsInOrder entity := by
  constructor
  · intro hsound route hroute
    refine (hsound route hroute).mono ?_ fun x e hread => hread.readsVar
    rintro x t ⟨hparam, hread | ⟨-, hread⟩⟩
    · exact ⟨hparam, hread.readsVar⟩
    · exact ⟨hparam, hread⟩
  · intro hhidden route hroute
    exact varsInOrder_of_hidden (noErrors_flatMap.mp h route hroute) (hhidden route hroute)

/-- `var price = get() ~> m_oracle;` in the first phase of a route whose route-level
    where reads `price` as an argument of `std::math::max`. -/
def readsVarInRouteWhere : Entity where
  name := "Vault"
  records := []
  enums := []
  typeAliases := []
  constants := []
  macros := []
  routes := [{
    name := "settle"
    params := []
    fromClauses := []
    whereClauses := [{
      condition := .binOp (.namespacedCall "std::math" "max" [.ident "price", .intLiteral .one] [])
        .gt (.intLiteral .zero)
      errorCode := 1
      errorName := none
      errorArgs := [] }]
    returnType := none
    body := .phased [{
      name := "fetch"
      whereClauses := []
      actions := [.varCall "price" "get" [] (.ident "m_oracle") none] }]
    isView := false
    isPure := false
    isInit := false
    isAccept := false
    isPrivate := false
    recoverTag := none
    factoryOnly := false }]
  members := []

/-- The check accepts the entity although its route where reads the var. -/
theorem readsVarInRouteWhere_accepted :
    NoErrors (checkVarCallScoping readsVarInRouteWhere) ∧ ¬ VarScopingSound readsVarInRouteWhere := by
  refine ⟨by decide, fun hsound => ?_⟩
  have horder := hsound _ List.mem_cons_self
  refine horder.routeWhere _ List.mem_cons_self "price" ⟨?_, ?_⟩
  · exact ⟨_, List.mem_cons_self, _, _, _, _, ReflTransGen.refl⟩
  · refine .head ⟨[], List.mem_cons_self, List.not_mem_nil⟩ ?_
    exact .single ⟨[], List.mem_cons_self, List.not_mem_nil⟩

theorem varScopingSound_iff_vault :
    NoErrors (checkVarCallScoping readsVarInRouteWhere) ∧
      (VarScopingSound readsVarInRouteWhere ↔ HiddenReadsInOrder readsVarInRouteWhere) :=
  ⟨by decide, varScopingSound_iff readsVarInRouteWhere (by decide)⟩

end CambrianLang.Validate
