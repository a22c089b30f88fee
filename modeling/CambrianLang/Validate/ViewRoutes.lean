/-
  **View routes** (V9 and E29, `validate/entity.rs`).

  V9 looks at the transforms of a view route and at everything the routes it
  `call`s do; E29, for Solidity only, at the actions of the view route itself.
  Neither looks at where a var call of the view route goes.
-/
import CambrianLang.Lib.Worklist
import CambrianLang.Semantics.Effects
import CambrianLang.Validate.EvmRules

namespace CambrianLang.Validate

open Ast Traversal Semantics Worklist Relation

/-! ### The checks -/

/-- Every action of a route body, nested ones included. -/
def nestedActions (route : Route) : List RouteAction :=
  route.body.allActions.flatMap walkActionSubtree.walk

/-- `call_targets`. -/
def callTargets (route : Route) : List String :=
  (nestedActions route).filterMap fun
    | .callRoute name _ => some name
    | _ => none

/-- The actions `route_has_state_changing_action` looks for. -/
def isStateChanging : RouteAction → Bool
  | .send .. | .varCall .. | .deploy .. | .emit .. | .effect .. | .updateCode .. => true
  | _ => false

def routeHasStateChangingAction (route : Route) : Bool := (nestedActions route).any isStateChanging

/-- The call targets of the route of that name. -/
def expandCall (entity : Entity) (name : String) : Option (List String) :=
  (entity.routes.find? (·.name == name)).map callTargets

def isMutating (entity : Entity) (name : String) : Bool :=
  (entity.routes.find? (·.name == name)).any fun callee =>
    hasTransforms entity callee.name || routeHasStateChangingAction callee

/-- Enough rounds for `find_mutating_call_target`. -/
def callFuel (entity : Entity) (route : Route) : Nat :=
  (callTargets route).length + pending (expandCall entity) (entity.routes.map (·.name)) [] + 1

def searchMutating (entity : Entity) (route : Route) : Option (Option String) :=
  search (expandCall entity) (isMutating entity) (callFuel entity route) [] (callTargets route).reverse

/-- `find_mutating_call_target`. -/
def findMutatingCallTarget (entity : Entity) (route : Route) : Option String :=
  (searchMutating entity route).getD none

/-- V9. -/
def checkViewRoutes (entity : Entity) : List Diagnostic :=
  ((entity.routes.filter fun route => route.isView && hasTransforms entity route.name).map fun route =>
    .error "V9" ("View route '" ++ route.name ++ "' in entity '" ++ entity.name ++
      "' must not modify state (has member transforms)")) ++
  (entity.routes.filter (·.isView)).flatMap fun route =>
    match findMutatingCallTarget entity route with
    | some callee =>
        [.error "V9" ("View route '" ++ route.name ++ "' in entity '" ++ entity.name ++
          "' must not modify state (calls route '" ++ callee ++
          "', which has member transforms or state-changing actions)")]
    | none => []

/-- What `first_view_forbidden_action` says of an action. -/
def forbiddenInView : RouteAction → Option String
  | .send (some _) .. => some "a message send"
  | .send none .. => some "a value transfer"
  | .deploy .. => some "a `deploy`"
  | .emit .. => some "an `emit`"
  | .effect .. | .updateCode .. => some "a platform effect"
  | _ => none

/-- `check_view_effects_solidity`. -/
def checkViewEffectsSolidity (entity : Entity) : List Diagnostic :=
  (entity.routes.filter (·.isView)).flatMap fun route =>
    match (nestedActions route).findSome? forbiddenInView with
    | some kind =>
        [.error "E29" ("View route '" ++ route.name ++ "' in entity '" ++ entity.name ++ "' contains " ++
          kind ++ ", which Solidity rejects in a `view` function; drop `view` or move the effect to a " ++
          "non-view route")]
    | none => []

/-! ### What the checks see -/

theorem mem_nestedActions {route : Route} {a : RouteAction} :
    a ∈ nestedActions route ↔ NestedIn route a := by
  rw [nestedActions, List.mem_flatMap]
  refine exists_congr fun b => and_congr_right fun _ => ?_
  rw [Walker.mem_walk]
  constructor
  · rintro ⟨c, hc, ha⟩
    rw [List.mem_singleton.mp ha]
    exact hc
  · exact fun h => ⟨a, h, List.mem_singleton.mpr rfl⟩

theorem mem_callTargets {route : Route} {name : String} :
    name ∈ callTargets route ↔ ∃ args, NestedIn route (.callRoute name args) := by
  rw [callTargets, List.mem_filterMap]
  constructor
  · rintro ⟨a, ha, heq⟩
    cases a with
    | callRoute n args =>
      cases heq
      exact ⟨args, mem_nestedActions.mp ha⟩
    | _ => cases heq
  · rintro ⟨args, h⟩
    exact ⟨_, mem_nestedActions.mpr h, rfl⟩

/-- The search for a mutating callee always ends. -/
theorem searchMutating_isSome (entity : Entity) (route : Route) :
    (searchMutating entity route).isSome = true := by
  have hkeys : ∀ name, (expandCall entity name).isSome = true → name ∈ entity.routes.map (·.name) := by
    intro name hname
    rw [expandCall, Option.isSome_map, List.find?_isSome] at hname
    obtain ⟨r, hr, heq⟩ := hname
    exact List.mem_map.mpr ⟨r, hr, beq_iff_eq.mp heq⟩
  refine search_isSome hkeys _ _ _ ?_
  rw [List.length_reverse, callFuel]
  exact Nat.lt_succ_self _

theorem searchMutating_of_clean {entity : Entity} {route : Route}
    (h : findMutatingCallTarget entity route = none) : searchMutating entity route = some none := by
  obtain ⟨found, hfound⟩ := Option.isSome_iff_exists.mp (searchMutating_isSome entity route)
  rw [findMutatingCallTarget, hfound, Option.getD_some] at h
  rw [hfound, h]

/-! ### Routes reached by `call` -/

/-- A route without state-changing actions targets only what it calls. -/
theorem target_of_not_changing {program : Program} {e : Entity} {a : RouteAction} {n : Entity × Route}
    (ha : isStateChanging a = false) (h : Target program e a n) :
    HarmlessAction program a ∧ n.1 = e ∧
      ∃ name args, a = .callRoute name args ∧ e.routes.find? (·.name == name) = some n.2 := by
  cases h with
  | call hr => exact ⟨trivial, rfl, _, _, rfl, hr⟩
  | send => cases ha
  | varCall => cases ha

theorem harmless_of_not_changing {program : Program} {a : RouteAction}
    (ha : isStateChanging a = false) : HarmlessAction program a := by
  cases a with
  | send => cases ha
  | varCall => cases ha
  | deploy => cases ha
  | emit => cases ha
  | effect => cases ha
  | updateCode => cases ha
  | _ => trivial

/-- **A route reached by `call` from a view route V9 accepts is quiet.** -/
theorem quiet_of_called {program : Program} {entity : Entity} {route callee : Route} {name : String}
    (h : findMutatingCallTarget entity route = none) (hname : name ∈ callTargets route)
    (hcallee : entity.routes.find? (·.name == name) = some callee) : Quiet program (entity, callee) := by
  have hgood := fun {m : String} => good_of_search (b := m) (searchMutating_of_clean h)
    (List.mem_reverse.mpr hname)
  -- every route run from here is found under a name the search has seen
  have hreach : ∀ n, ReflTransGen (Runs program) (entity, callee) n → n.1 = entity ∧
      ∃ m, entity.routes.find? (·.name == m) = some n.2 ∧
        ReflTransGen (Step (expandCall entity)) name m ∧ isMutating entity m = false := by
    intro n hn
    have hclean : ∀ m r, entity.routes.find? (·.name == m) = some r →
        ReflTransGen (Step (expandCall entity)) name m → isMutating entity m = false := by
      intro m r hr hm
      exact hgood hm (by rw [expandCall, hr]; rfl)
    induction hn with
    | refl => exact ⟨rfl, name, hcallee, .refl, hclean name callee hcallee .refl⟩
    | @tail n n' _ hstep ih =>
      obtain ⟨he, m, hm, hseen, hquiet⟩ := ih
      obtain ⟨a, ha, htarget⟩ := hstep
      rw [isMutating, hm, Option.any_some, Bool.or_eq_false_iff, routeHasStateChangingAction,
        List.any_eq_false] at hquiet
      have hnot : isStateChanging a = false := by
        rw [← Bool.not_eq_true]
        exact hquiet.2 a (mem_nestedActions.mpr ha)
      obtain ⟨-, he', m', args, rfl, hm'⟩ := target_of_not_changing hnot htarget
      rw [he] at he' hm'
      have hstep' : Step (expandCall entity) m m' := by
        refine ⟨callTargets n.2, by rw [expandCall, hm]; rfl, ?_⟩
        exact mem_callTargets.mpr ⟨args, ha⟩
      exact ⟨he', m', hm', hseen.tail hstep', hclean m' _ hm' (hseen.tail hstep')⟩
  intro n hn
  obtain ⟨he, m, hm, -, hquiet⟩ := hreach n hn
  rw [isMutating, hm, Option.any_some, Bool.or_eq_false_iff, routeHasStateChangingAction,
    List.any_eq_false] at hquiet
  refine ⟨by rw [he]; exact hquiet.1, ?_⟩
  intro a ha
  refine harmless_of_not_changing ?_
  rw [← Bool.not_eq_true]
  exact hquiet.2 a (mem_nestedActions.mpr ha)

/-! ### View routes -/

/-- Whatever the route runs is harmless, and so every run leaves the world as it is. -/
structure ViewSafe (program : Program) (e : Entity) (r : Route) : Prop where
  quiet : Quiet program (e, r)
  unchanged : ∀ (V : Type) (self : Nat) (w w' : World V),
    Exec program self e (.route r) w w' → w' = w

/-- The route's own actions are harmless, and what they send or var call is quiet. -/
def OwnActionsHarmless (program : Program) (e : Entity) (r : Route) : Prop :=
  ∀ a, NestedIn r a → HarmlessAction program a ∧
    (isStateChanging a = true → ∀ n, Target program e a n → Quiet program n)

/-- **A view route that V9 accepts changes nothing exactly when its own actions are
    harmless** and its sends and var calls go to routes that change nothing. -/
theorem viewSafe_iff (program : Program) (e : Entity) (h : NoErrors (checkViewRoutes e)) (r : Route)
    (hr : r ∈ e.routes) (hview : r.isView = true) :
    ViewSafe program e r ↔ OwnActionsHarmless program e r := by
  rw [checkViewRoutes, noErrors_append, noErrors_flatMap] at h
  obtain ⟨htransforms, hcalls⟩ := h
  constructor
  · intro hsafe a ha
    exact ⟨(hsafe.quiet _ .refl).actions a ha, fun _ n hn => hsafe.quiet.step ⟨a, ha, hn⟩⟩
  · intro hown
    have hnone : hasTransforms e r.name = false := by
      by_contra hhas
      rw [Bool.not_eq_false] at hhas
      refine htransforms _ (List.mem_map.mpr ⟨r, List.mem_filter.mpr ⟨hr, ?_⟩, rfl⟩) rfl
      rw [hview, hhas]
      rfl
    have hcall : findMutatingCallTarget e r = none := by
      have hcheck := hcalls r (List.mem_filter.mpr ⟨hr, hview⟩)
      cases hfound : findMutatingCallTarget e r with
      | none => rfl
      | some callee =>
        rw [hfound] at hcheck
        exact absurd rfl (hcheck _ (List.mem_singleton.mpr rfl))
    have hquiet : Quiet program (e, r) := by
      intro n hn
      rcases ReflTransGen.cases_head hn with rfl | ⟨n', ⟨a, ha, htarget⟩, hrest⟩
      · exact ⟨hnone, fun a ha => (hown a ha).1⟩
      · by_cases hchange : isStateChanging a = true
        · exact (hown a ha).2 hchange n' htarget n hrest
        · rw [Bool.not_eq_true] at hchange
          obtain ⟨-, he, name, args, rfl, hfind⟩ := target_of_not_changing hchange htarget
          have hcalled : Quiet program (e, n'.2) :=
            quiet_of_called hcall (mem_callTargets.mpr ⟨args, ha⟩) hfind
          have hsame : n' = (e, n'.2) := Prod.ext he rfl
          rw [hsame] at hrest
          exact hcalled n hrest
    exact ⟨hquiet, fun V self w w' hexec => exec_quiet hexec hquiet⟩

/-! ### A view route that var calls a mutating one -/

def bumpRoute : Route where
  name := "bump"
  params := []
  fromClauses := []
  whereClauses := []
  returnType := some (.simple "u64")
  body := .unphased [.ret [.ident "n"]]
  isView := false
  isPure := false
  isInit := false
  isAccept := false
  isPrivate := false
  recoverTag := none
  factoryOnly := false

/-- `view peek(c: Address<Counter>) => [ var x = bump() ~> c; return(x) ]`. -/
def peekRoute : Route :=
  { bumpRoute with
    name := "peek"
    params := [{ name := "c", ty := .typedAddress "Counter" }]
    body := .unphased [.varCall "x" "bump" [] (.ident "c") none, .ret [.ident "x"]]
    isView := true }

def counterEntity : Entity where
  name := "Counter"
  records := []
  enums := []
  typeAliases := []
  constants := []
  macros := []
  routes := [bumpRoute, peekRoute]
  members := [{
    name := "n", ty := .simple "u64", isIdentity := false, defaultValue := none
    transforms := [{ routeName := "bump", params := [], phase := none
                     body := .binOp (.ident "n") .add (.intLiteral .one) }] }]

def counterProgram : Program where
  imports := []
  pureFns := []
  typeAliases := []
  records := []
  enums := []
  entities := [counterEntity]
  externEntities := []
  libraries := []

/-- Every address holds a counter at zero. -/
def zeroWorld : World Nat where
  storage := fun _ _ => 0
  entityAt := fun _ => some counterEntity
  balance := fun _ => 0
  log := []

/-- The storage of a counter after one `bump`. -/
def bumped (m : String) : Nat := if m = "n" then 1 else 0

theorem exec_bump : Exec counterProgram 1 counterEntity (.route bumpRoute) zeroWorld
    { zeroWorld with storage := Function.update zeroWorld.storage 1 bumped } := by
  refine .route (.segmentsCons bumped ?_ .actionsEnd .segmentsEnd)
  intro m hm
  by_cases hn : m = "n"
  · exact absurd ⟨_, List.mem_cons_self, hn.symm, _, List.mem_cons_self, rfl, rfl⟩ hm
  · exact if_neg hn

theorem exec_peek : Exec counterProgram 0 counterEntity (.route peekRoute) zeroWorld
    { zeroWorld with storage := Function.update zeroWorld.storage 1 bumped } := by
  refine .route (.segmentsCons (zeroWorld.storage 0) (fun _ _ => rfl) ?_ .segmentsEnd)
  rw [Function.update_eq_self]
  refine .actionsCons (.varCall ?_) .actionsEnd
  exact .deliver (d := 1) zeroWorld.balance List.mem_cons_self rfl rfl (fun _ => rfl) exec_bump

/-- Accepted by V9 and E29, and yet a run of the view route changes a storage. -/
theorem view_changes_state :
    NoErrors (checkViewRoutes counterEntity) ∧ NoErrors (checkViewEffectsSolidity counterEntity) ∧
    peekRoute ∈ counterEntity.routes ∧ peekRoute.isView = true ∧
    ∃ w w' : World Nat, Exec counterProgram 0 counterEntity (.route peekRoute) w w' ∧
      w'.storage 1 "n" ≠ w.storage 1 "n" := by
  refine ⟨by decide, by decide, List.mem_cons_of_mem _ List.mem_cons_self, rfl, zeroWorld, _,
    exec_peek, ?_⟩
  decide

theorem viewSafe_peek :
    ViewSafe counterProgram counterEntity peekRoute ↔
      OwnActionsHarmless counterProgram counterEntity peekRoute :=
  viewSafe_iff counterProgram counterEntity (by decide) peekRoute
    (List.mem_cons_of_mem _ List.mem_cons_self) rfl

end CambrianLang.Validate
