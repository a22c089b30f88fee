/-
  **Where `^member` may stand** (V43 and V7, `validate/entity.rs`), and what the
  placement check and the transform order together guarantee.

  Both walk the expressions as written.  A macro called with `@m(..)` is not
  followed, so a `^member` in its body escapes the placement check and the
  dependency collector, which also stays out of `address_of` and `encode`.
-/
import CambrianLang.Analysis.Temporal

namespace CambrianLang.Validate

open Ast Traversal Analysis Relation

/-! ### The check -/

/-- `reject_temporal_in_expr`. -/
def rejectTemporalInExpr (ctx : String) : Walker Expr Diagnostic where
  own
    | .temporalRef name =>
        [.error "V43" ("Temporal reference '^" ++ name ++
          "' is only allowed inside a member transform body (found in " ++ ctx ++ ")")]
    | _ => []
  visited := Expr.children
  rank := Expr.rank
  rank_lt := rank_child_lt

/-- The expressions of an action with the place `reject_temporal_in_action` names. -/
def temporalActionSites (routeCtx : String) : RouteAction → List (String × Expr)
  | .letA _ value => [(routeCtx ++ " let", value)]
  | .ret values => values.map (routeCtx ++ " return", ·)
  | .send _ args dest opts =>
      args.map (routeCtx ++ " send", ·) ++ (routeCtx ++ " send dest", dest) ::
        opts.toList.map (routeCtx ++ " send options", ·)
  | .conditional condition _ _ => [(routeCtx ++ " if", condition)]
  | .effect _ _ args => args.map (routeCtx ++ " effect", ·)
  | .deploy _ opts args =>
      args.map (routeCtx ++ " deploy", ·) ++ opts.toList.map (routeCtx ++ " deploy options", ·)
  | .rescue _ _ | .throw _ => []
  | .throwCustom _ args => args.map (routeCtx ++ " throw", ·)
  | .callRoute _ args => args.map (routeCtx ++ " call", ·)
  | .updateCode args _ cbArgs => (args ++ cbArgs).map (routeCtx ++ " updateCode", ·)
  | .varCall _ _ args dest opts =>
      args.map (routeCtx ++ " var call", ·) ++ (routeCtx ++ " var call dest", dest) ::
        opts.toList.map (routeCtx ++ " var call options", ·)
  | .forA _ iter _ => [(routeCtx ++ " for", iter)]
  | .emit _ args => args.map (routeCtx ++ " emit", ·)

/-- `reject_temporal_in_action`. -/
def rejectTemporalInAction (routeCtx : String) : Walker RouteAction Diagnostic where
  own a := (temporalActionSites routeCtx a).flatMap fun site => (rejectTemporalInExpr site.1).walk site.2
  visited := RouteAction.children
  rank := RouteAction.rank
  rank_lt := rank_nested_lt

/-- The sites of a route outside its actions. -/
def routeSites (route : Route) : List (String × Expr) :=
  let routeCtx := "route '" ++ route.name ++ "'"
  (route.whereClauses.flatMap fun wc =>
    (routeCtx ++ " where clause", wc.condition) ::
      wc.errorArgs.map (routeCtx ++ " where error args", ·)) ++
  (route.fromClauses.flatMap fun fc =>
    fc.args.map (routeCtx ++ " from clause", ·) ++
    fc.withParams.toList.map (routeCtx ++ " from with", ·) ++
    fc.errorArgs.map (routeCtx ++ " from error args", ·)) ++
  route.body.phaseBlocks.flatMap fun phase =>
    let phaseCtx := routeCtx ++ " phase '" ++ phase.name ++ "'"
    phase.whereClauses.flatMap fun wc =>
      (phaseCtx ++ " where clause", wc.condition) ::
        wc.errorArgs.map (phaseCtx ++ " where error args", ·)

/-- `check_temporal_ref_placement`. -/
def checkTemporalRefPlacement (entity : Entity) : List Diagnostic :=
  (entity.routes.flatMap fun route =>
    ((routeSites route).flatMap fun site => (rejectTemporalInExpr site.1).walk site.2) ++
    route.body.allActions.flatMap (rejectTemporalInAction ("route '" ++ route.name ++ "'")).walk) ++
  entity.members.flatMap fun member =>
    member.defaultValue.toList.flatMap
      (rejectTemporalInExpr ("member '" ++ member.name ++ "' default")).walk

/-- `is_const_expr`. -/
def isConstExpr : Expr → Bool
  | .intLiteral _ | .stringLiteral _ | .bytesLiteral _ | .boolLiteral _ => true
  | _ => false

/-- `check_constant_values`. -/
def checkConstantValues (entity : Entity) : List Diagnostic :=
  (entity.constants.filter fun c => !isConstExpr c.value).map fun c =>
    .error "V7" ("Constant '" ++ c.name ++ "' in entity '" ++ entity.name ++ "' has non-literal value")

/-! ### The property -/

/-- The expressions of an entity that are in no transform and in no macro. -/
inductive OutsideTransform (entity : Entity) : Expr → Prop
  | whereCondition {route : Route} {wc : WhereClause} (hr : route ∈ entity.routes)
      (hw : wc ∈ route.whereClauses) : OutsideTransform entity wc.condition
  | whereErrorArg {route : Route} {wc : WhereClause} {e : Expr} (hr : route ∈ entity.routes)
      (hw : wc ∈ route.whereClauses) (he : e ∈ wc.errorArgs) : OutsideTransform entity e
  | fromArg {route : Route} {fc : FromClause} {e : Expr} (hr : route ∈ entity.routes)
      (hf : fc ∈ route.fromClauses) (he : e ∈ fc.args) : OutsideTransform entity e
  | fromWith {route : Route} {fc : FromClause} {e : Expr} (hr : route ∈ entity.routes)
      (hf : fc ∈ route.fromClauses) (he : fc.withParams = some e) : OutsideTransform entity e
  | fromErrorArg {route : Route} {fc : FromClause} {e : Expr} (hr : route ∈ entity.routes)
      (hf : fc ∈ route.fromClauses) (he : e ∈ fc.errorArgs) : OutsideTransform entity e
  | phaseCondition {route : Route} {phase : PhaseBlock} {wc : WhereClause}
      (hr : route ∈ entity.routes) (hp : phase ∈ route.body.phaseBlocks)
      (hw : wc ∈ phase.whereClauses) : OutsideTransform entity wc.condition
  | phaseErrorArg {route : Route} {phase : PhaseBlock} {wc : WhereClause} {e : Expr}
      (hr : route ∈ entity.routes) (hp : phase ∈ route.body.phaseBlocks)
      (hw : wc ∈ phase.whereClauses) (he : e ∈ wc.errorArgs) : OutsideTransform entity e
  | action {route : Route} {a b : RouteAction} {e : Expr} (hr : route ∈ entity.routes)
      (ha : a ∈ route.body.allActions) (hb : Subaction a b) (he : e ∈ b.exprs) :
      OutsideTransform entity e
  | default {member : Member} {e : Expr} (hm : member ∈ entity.members)
      (he : member.defaultValue = some e) : OutsideTransform entity e
  | constant {c : Const} (hc : c ∈ entity.constants) : OutsideTransform entity c.value

/-- A transform of the first member in the route reads the second. -/
def DependsOn (entity : Entity) (routeName a b : String) : Prop :=
  ∃ m ∈ entity.members, m.name = a ∧ ∃ t ∈ m.transforms, t.routeName = routeName ∧
    Reads entity t.body b

/-- Temporal references are confined to transforms and order them. -/
structure TemporalSafe (entity : Entity) : Prop where
  confined : ∀ e, OutsideTransform entity e → ∀ n, ¬ Reads entity e n
  accounted : ∀ m ∈ entity.members, ∀ t ∈ m.transforms, ∀ n, Reads entity t.body n →
    n ∈ temporalDeps entity t.routeName m.name
  ordered : ∀ routeName phase, (schedule entity routeName phase).Pairwise fun r t =>
    ¬ Reads entity r.2.body t.1.name
  acyclic : ∀ routeName n, ¬ TransGen (DependsOn entity routeName) n n

/-- `^n` stands in a transform of the member for the route, outside macros,
    `address_of` and `encode`. -/
def WrittenOpenly (entity : Entity) (routeName member n : String) : Prop :=
  ∃ m ∈ entity.members, m.name = member ∧ ∃ t ∈ m.transforms, t.routeName = routeName ∧
    ReflTransGen (fun a b => b ∈ visitedForRefs a) t.body (.temporalRef n)

/-- No reference outside the transforms is hidden in a macro, and one that a transform
    hides in a macro, an `address_of` or an `encode` is also written openly. -/
structure NoHiddenRef (entity : Entity) : Prop where
  outside : ∀ e, OutsideTransform entity e → ∀ n, ¬ Hidden entity Expr.children e n
  inside : ∀ m ∈ entity.members, ∀ t ∈ m.transforms, ∀ n, Hidden entity visitedForRefs t.body n →
    WrittenOpenly entity t.routeName m.name n

/-- No V3, V7 or V43 error. -/
structure TemporalAccepted (entity : Entity) : Prop where
  dag : NoErrors (checkTemporalDag entity)
  constants : NoErrors (checkConstantValues entity)
  placement : NoErrors (checkTemporalRefPlacement entity)

/-! ### What the placement check rejects -/

theorem not_visible_of_walk {ctx : String} {e : Expr} (h : NoErrors ((rejectTemporalInExpr ctx).walk e))
    (n : String) : ¬ ReflTransGen (fun a b => b ∈ a.children) e (.temporalRef n) := by
  intro hreach
  exact h _ ((rejectTemporalInExpr ctx).mem_walk.mpr ⟨_, hreach, List.mem_singleton.mpr rfl⟩) rfl

theorem mem_temporalActionSites {routeCtx : String} {a : RouteAction} {e : Expr} (h : e ∈ a.exprs) :
    ∃ ctx, (ctx, e) ∈ temporalActionSites routeCtx a := by
  cases a with
  | send m args dest opts | varCall n m args dest opts =>
    rcases List.mem_append.mp h with harg | hrest
    · exact ⟨_, List.mem_append_left _ (List.mem_map.mpr ⟨e, harg, rfl⟩)⟩
    · rcases List.mem_cons.mp hrest with rfl | hopt
      · exact ⟨_, List.mem_append_right _ List.mem_cons_self⟩
      · exact ⟨_, List.mem_append_right _ (List.mem_cons_of_mem _ (List.mem_map.mpr ⟨e, hopt, rfl⟩))⟩
  | deploy n opts args =>
    rcases List.mem_append.mp h with hopt | harg
    · exact ⟨_, List.mem_append_right _ (List.mem_map.mpr ⟨e, hopt, rfl⟩)⟩
    · exact ⟨_, List.mem_append_left _ (List.mem_map.mpr ⟨e, harg, rfl⟩)⟩
  | conditional c _ _ =>
    rw [List.mem_singleton.mp h]
    exact ⟨_, List.mem_singleton.mpr rfl⟩
  | letA _ value =>
    rw [List.mem_singleton.mp h]
    exact ⟨_, List.mem_singleton.mpr rfl⟩
  | forA _ iter _ =>
    rw [List.mem_singleton.mp h]
    exact ⟨_, List.mem_singleton.mpr rfl⟩
  | ret values => exact ⟨_, List.mem_map.mpr ⟨e, h, rfl⟩⟩
  | effect _ _ args => exact ⟨_, List.mem_map.mpr ⟨e, h, rfl⟩⟩
  | throwCustom _ args => exact ⟨_, List.mem_map.mpr ⟨e, h, rfl⟩⟩
  | emit _ args => exact ⟨_, List.mem_map.mpr ⟨e, h, rfl⟩⟩
  | callRoute _ args => exact ⟨_, List.mem_map.mpr ⟨e, h, rfl⟩⟩
  | updateCode args _ cbArgs => exact ⟨_, List.mem_map.mpr ⟨e, h, rfl⟩⟩
  | rescue => exact absurd h List.not_mem_nil
  | throw => exact absurd h List.not_mem_nil

/-- The sites of a route, the expressions of its actions and the defaults are walked. -/
theorem placement_walks {entity : Entity} (h : NoErrors (checkTemporalRefPlacement entity)) :
    (∀ route ∈ entity.routes, ∀ site ∈ routeSites route,
      NoErrors ((rejectTemporalInExpr site.1).walk site.2)) ∧
    (∀ route ∈ entity.routes, ∀ a ∈ route.body.allActions, ∀ b, Subaction a b → ∀ e ∈ b.exprs,
      ∃ ctx, NoErrors ((rejectTemporalInExpr ctx).walk e)) ∧
    ∀ m ∈ entity.members, ∀ e, m.defaultValue = some e →
      ∃ ctx, NoErrors ((rejectTemporalInExpr ctx).walk e) := by
  rw [checkTemporalRefPlacement, noErrors_append, noErrors_flatMap, noErrors_flatMap] at h
  obtain ⟨hroutes, hmembers⟩ := h
  refine ⟨?_, ?_, ?_⟩
  · intro route hr site hsite
    exact noErrors_flatMap.mp (noErrors_append.mp (hroutes route hr)).1 site hsite
  · intro route hr a ha b hb e he
    have hwalk := noErrors_flatMap.mp (noErrors_append.mp (hroutes route hr)).2 a ha
    obtain ⟨ctx, hsite⟩ : ∃ ctx, (ctx, e) ∈ temporalActionSites ("route '" ++ route.name ++ "'") b :=
      mem_temporalActionSites he
    refine ⟨ctx, ?_⟩
    intro d hd
    exact hwalk d ((rejectTemporalInAction _).mem_walk.mpr
      ⟨b, hb, List.mem_flatMap.mpr ⟨(ctx, e), hsite, hd⟩⟩)
  · intro m hm e he
    refine ⟨_, noErrors_flatMap.mp (hmembers m hm) e ?_⟩
    rw [he]
    exact List.mem_singleton.mpr rfl

theorem mem_routeSites_where {route : Route} {wc : WhereClause} (h : wc ∈ route.whereClauses) :
    (∃ ctx, (ctx, wc.condition) ∈ routeSites route) ∧
      ∀ e ∈ wc.errorArgs, ∃ ctx, (ctx, e) ∈ routeSites route := by
  constructor
  · exact ⟨_, List.mem_append_left _ (List.mem_append_left _
      (List.mem_flatMap.mpr ⟨wc, h, List.mem_cons_self⟩))⟩
  · intro e he
    exact ⟨_, List.mem_append_left _ (List.mem_append_left _
      (List.mem_flatMap.mpr ⟨wc, h, List.mem_cons_of_mem _ (List.mem_map.mpr ⟨e, he, rfl⟩)⟩))⟩

theorem mem_routeSites_from {route : Route} {fc : FromClause} (h : fc ∈ route.fromClauses) {e : Expr}
    (he : e ∈ fc.args ++ fc.withParams.toList ++ fc.errorArgs) :
    ∃ ctx, (ctx, e) ∈ routeSites route := by
  have hin : ∀ site, site ∈ fc.args.map ("route '" ++ route.name ++ "'" ++ " from clause", ·) ++
      fc.withParams.toList.map ("route '" ++ route.name ++ "'" ++ " from with", ·) ++
      fc.errorArgs.map ("route '" ++ route.name ++ "'" ++ " from error args", ·) →
      site ∈ routeSites route :=
    fun site hsite => List.mem_append_left _ (List.mem_append_right _
      (List.mem_flatMap.mpr ⟨fc, h, hsite⟩))
  rcases List.mem_append.mp he with hfront | herr
  · rcases List.mem_append.mp hfront with harg | hwith
    · exact ⟨_, hin _ (List.mem_append_left _ (List.mem_append_left _
        (List.mem_map.mpr ⟨e, harg, rfl⟩)))⟩
    · exact ⟨_, hin _ (List.mem_append_left _ (List.mem_append_right _
        (List.mem_map.mpr ⟨e, hwith, rfl⟩)))⟩
  · exact ⟨_, hin _ (List.mem_append_right _ (List.mem_map.mpr ⟨e, herr, rfl⟩))⟩

theorem mem_routeSites_phase {route : Route} {phase : PhaseBlock}
    (hp : phase ∈ route.body.phaseBlocks) {wc : WhereClause} (h : wc ∈ phase.whereClauses) :
    (∃ ctx, (ctx, wc.condition) ∈ routeSites route) ∧
      ∀ e ∈ wc.errorArgs, ∃ ctx, (ctx, e) ∈ routeSites route := by
  constructor
  · exact ⟨_, List.mem_append_right _ (List.mem_flatMap.mpr ⟨phase, hp,
      List.mem_flatMap.mpr ⟨wc, h, List.mem_cons_self⟩⟩)⟩
  · intro e he
    exact ⟨_, List.mem_append_right _ (List.mem_flatMap.mpr ⟨phase, hp,
      List.mem_flatMap.mpr ⟨wc, h, List.mem_cons_of_mem _ (List.mem_map.mpr ⟨e, he, rfl⟩)⟩⟩)⟩

/-- Outside the transforms an accepted entity writes no `^n`. -/
theorem not_visible_outside {entity : Entity} (h : TemporalAccepted entity) {e : Expr}
    (he : OutsideTransform entity e) (n : String) :
    ¬ ReflTransGen (fun a b => b ∈ a.children) e (.temporalRef n) := by
  obtain ⟨hsites, hactions, hdefaults⟩ := placement_walks h.placement
  cases he with
  | whereCondition hr hw =>
    obtain ⟨ctx, hsite⟩ := (mem_routeSites_where hw).1
    exact not_visible_of_walk (hsites _ hr _ hsite) n
  | whereErrorArg hr hw he =>
    obtain ⟨ctx, hsite⟩ := (mem_routeSites_where hw).2 e he
    exact not_visible_of_walk (hsites _ hr _ hsite) n
  | fromArg hr hf he =>
    obtain ⟨ctx, hsite⟩ := mem_routeSites_from hf
      (List.mem_append_left _ (List.mem_append_left _ he))
    exact not_visible_of_walk (hsites _ hr _ hsite) n
  | fromWith hr hf he =>
    obtain ⟨ctx, hsite⟩ := mem_routeSites_from hf
      (List.mem_append_left _ (List.mem_append_right _ (Option.mem_toList.mpr he)))
    exact not_visible_of_walk (hsites _ hr _ hsite) n
  | fromErrorArg hr hf he =>
    obtain ⟨ctx, hsite⟩ := mem_routeSites_from hf (List.mem_append_right _ he)
    exact not_visible_of_walk (hsites _ hr _ hsite) n
  | phaseCondition hr hp hw =>
    obtain ⟨ctx, hsite⟩ := (mem_routeSites_phase hp hw).1
    exact not_visible_of_walk (hsites _ hr _ hsite) n
  | phaseErrorArg hr hp hw he =>
    obtain ⟨ctx, hsite⟩ := (mem_routeSites_phase hp hw).2 e he
    exact not_visible_of_walk (hsites _ hr _ hsite) n
  | action hr ha hb he =>
    obtain ⟨ctx, hwalk⟩ := hactions _ hr _ ha _ hb e he
    exact not_visible_of_walk hwalk n
  | default hm he =>
    obtain ⟨ctx, hwalk⟩ := hdefaults _ hm e he
    exact not_visible_of_walk hwalk n
  | @constant c hc =>
    -- a constant is a literal, which has no subexpressions
    have hlit : isConstExpr c.value = true := by
      by_contra hnot
      rw [Bool.not_eq_true] at hnot
      refine h.constants _ (List.mem_map.mpr ⟨c, List.mem_filter.mpr ⟨hc, ?_⟩, rfl⟩) rfl
      rw [hnot]
      rfl
    intro hreach
    rcases ReflTransGen.cases_head hreach with heq | ⟨b, hb, -⟩
    · rw [heq] at hlit
      cases hlit
    · cases hval : c.value with
      | intLiteral | stringLiteral | bytesLiteral | boolLiteral =>
        rw [hval] at hb
        exact absurd hb List.not_mem_nil
      | _ =>
        rw [hval] at hlit
        cases hlit

/-! ### The guarantee -/

theorem mem_temporalDeps_iff {entity : Entity} (h : TemporalAccepted entity)
    {routeName member n : String} :
    n ∈ temporalDeps entity routeName member ↔ WrittenOpenly entity routeName member n := by
  rw [mem_temporalDeps]
  constructor
  · rintro ⟨-, body, hmem, hn⟩
    obtain ⟨m, hm, hname, t, ht, hroute, rfl⟩ := mem_routeTransforms.mp hmem
    exact ⟨m, hm, hname, t, ht, hroute, mem_collectTemporalRefs.mp hn⟩
  · rintro ⟨m, hm, hname, t, ht, hroute, hreach⟩
    have hn := mem_collectTemporalRefs.mpr hreach
    exact ⟨isMember_of_collected h.dag hm ht hn, t.body,
      mem_routeTransforms.mpr ⟨m, hm, hname, t, ht, hroute, rfl⟩, hn⟩

/-- What follows once every reference is accounted for. -/
theorem ordered_of_accounted {entity : Entity} (h : TemporalAccepted entity)
    (hacc : ∀ m ∈ entity.members, ∀ t ∈ m.transforms, ∀ n, Reads entity t.body n →
      n ∈ temporalDeps entity t.routeName m.name) (routeName : String) (phase : Option String) :
    (schedule entity routeName phase).Pairwise fun r t => ¬ Reads entity r.2.body t.1.name := by
  refine (schedule_pairwise h.dag routeName phase).imp_of_mem ?_
  intro r t hr _ hnot hreads
  have hin : r ∈ collectTransforms entity routeName phase := by
    rw [schedule, orderTransformsTemporally] at hr
    cases hord : (temporalOrders entity).find? (·.routeName == routeName) with
    | some ord =>
      rw [hord] at hr
      exact (List.mem_insertionSort _).mp hr
    | none =>
      rw [hord] at hr
      exact hr
  obtain ⟨hm, ht, hroute⟩ := mem_collectTransforms hin
  have hdep := hacc r.1 hm r.2 ht _ hreads
  rw [hroute] at hdep
  exact hnot hdep

theorem acyclic_of_accounted {entity : Entity} (h : TemporalAccepted entity)
    (hacc : ∀ m ∈ entity.members, ∀ t ∈ m.transforms, ∀ n, Reads entity t.body n →
      n ∈ temporalDeps entity t.routeName m.name) (routeName n : String) :
    ¬ TransGen (DependsOn entity routeName) n n := by
  intro hcyc
  have hstep : ∀ a b, DependsOn entity routeName a b →
      a ∈ membersInRoute entity routeName ∧ b ∈ temporalDeps entity routeName a := by
    rintro a b ⟨m, hm, rfl, t, ht, rfl, hreads⟩
    exact ⟨mem_membersInRoute.mpr ⟨m, hm, rfl, t, ht, rfl⟩, hacc m hm t ht b hreads⟩
  have hroute : routeName ∈ transformedRoutes entity := by
    obtain ⟨_, ⟨m, hm, -, t, ht, rfl, -⟩, -⟩ := TransGen.head'_iff.mp hcyc
    exact mem_transformedRoutes hm ht
  obtain ⟨order, hsort⟩ := sortMembers_ok h.dag hroute
  exact TopoSort.acyclic_of_topologicalSort perm_insertionSort_names (nodup_firstOccurrences _) hsort
    hstep n hcyc

/-- **Which accepted entities confine and order their temporal references.** -/
theorem temporalSafe_iff (entity : Entity) (h : TemporalAccepted entity) :
    TemporalSafe entity ↔ NoHiddenRef entity := by
  constructor
  · intro hsafe
    refine ⟨?_, ?_⟩
    · intro e he n hhidden
      exact hsafe.confined e he n hhidden.reads
    · intro m hm t ht n hhidden
      exact (mem_temporalDeps_iff h).mp (hsafe.accounted m hm t ht n hhidden.reads)
  · intro hopen
    have hacc : ∀ m ∈ entity.members, ∀ t ∈ m.transforms, ∀ n, Reads entity t.body n →
        n ∈ temporalDeps entity t.routeName m.name := by
      intro m hm t ht n hreads
      rw [mem_temporalDeps_iff h]
      rcases hreads.visited_or_hidden visitedForRefs with hvis | hhidden
      · exact ⟨m, hm, rfl, t, ht, rfl, hvis⟩
      · exact hopen.inside m hm t ht n hhidden
    refine ⟨?_, hacc, ordered_of_accounted h hacc, acyclic_of_accounted h hacc⟩
    intro e he n hreads
    rcases hreads.visited_or_hidden Expr.children with hvis | hhidden
    · exact not_visible_outside h he n hvis
    · exact hopen.outside e he n hhidden

/-! ### Two members that read each other's new value through macros -/

/-- `in tick() => @other()` for a member. -/
def macroTransform (mac : String) : MemberTransform where
  routeName := "tick"
  params := []
  body := .macroRef mac []
  phase := none

/-- `x: u64 = @y_new()`, `y: u64 = @x_new()` where `x_new() = ^x` and `y_new() = ^y`. -/
def crossEntity : Entity where
  name := "Cross"
  records := []
  enums := []
  typeAliases := []
  constants := []
  macros := [
    { name := "x_new", params := [], returnType := .simple "u64", body := .temporalRef "x" },
    { name := "y_new", params := [], returnType := .simple "u64", body := .temporalRef "y" }]
  routes := [
    { name := "tick", params := [], fromClauses := [], whereClauses := [], returnType := none
      body := .unphased [], isView := false, isPure := false, isInit := false, isAccept := false
      isPrivate := false, recoverTag := none, factoryOnly := false }]
  members := [
    { name := "x", ty := .simple "u64", isIdentity := false, defaultValue := none
      transforms := [macroTransform "y_new"] },
    { name := "y", ty := .simple "u64", isIdentity := false, defaultValue := none
      transforms := [macroTransform "x_new"] }]

theorem crossEntity_accepted : TemporalAccepted crossEntity :=
  ⟨by decide, by decide, by decide⟩

theorem temporal_cycle_accepted : TemporalAccepted crossEntity ∧ ¬ TemporalSafe crossEntity := by
  refine ⟨crossEntity_accepted, ?_⟩
  intro hsafe
  have hx : crossEntity.macros.find? (·.name == "x_new") =
      some ⟨"x_new", [], .simple "u64", .temporalRef "x"⟩ := rfl
  have hy : crossEntity.macros.find? (·.name == "y_new") =
      some ⟨"y_new", [], .simple "u64", .temporalRef "y"⟩ := rfl
  refine hsafe.acyclic "tick" "x" (TransGen.tail (TransGen.single (b := "y") ?_) ?_)
  · exact ⟨_, List.mem_cons_self, rfl, _, List.mem_cons_self, rfl,
      ReflTransGen.single (.body hy)⟩
  · exact ⟨_, List.mem_cons_of_mem _ List.mem_cons_self, rfl, _, List.mem_cons_self, rfl,
      ReflTransGen.single (.body hx)⟩

theorem temporalSafe_cross : TemporalSafe crossEntity ↔ NoHiddenRef crossEntity :=
  temporalSafe_iff crossEntity crossEntity_accepted

end CambrianLang.Validate
