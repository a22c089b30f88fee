/-
  **Which routes can fail** (`fail_closure`, `analysis/route_facts.rs`).

  A route that fails of itself lets the routes that call it fail too.  The facts of the
  routes are stored in a hash map, which is gone over until nothing changes.  The back ends
  take the facts of a whole program, the validator those of one entity.
-/
import CambrianLang.Analysis.EntityOrder
import CambrianLang.Analysis.MsgValue
import CambrianLang.Lib.Saturation

namespace CambrianLang.Analysis

open Ast Saturation Traversal Relation

/-! ### Facts -/

/-- A failure of the action itself. -/
def isLocalFailure : RouteAction → Bool
  | .throw _ | .throwCustom .. | .deploy .. | .send none _ _ _ => true
  | _ => false

/-- `walk_action_skip_rescue`. -/
def walkActionSkipRescue : Walker RouteAction RouteAction where
  own a := [a]
  visited := surfaceNested
  rank := RouteAction.rank
  rank_lt := rank_surfaceNested_lt

/-- `local_fail_surface`. -/
def localFailSurface (route : Route) : Bool :=
  !route.fromClauses.isEmpty || !route.whereClauses.isEmpty ||
    route.body.phaseBlocks.any (!·.whereClauses.isEmpty) ||
    (route.body.allActions.flatMap walkActionSkipRescue.walk).any isLocalFailure

/-- `RouteFacts`. -/
structure RouteFacts where
  usesMsgValue : Bool
  localFailSurface : Bool
  isView : Bool
  hasUnphasedSends : Bool
  phasedNeedsWorldThread : Bool
  callCallees : List String
deriving DecidableEq

/-- The route of the entity that an action calls. -/
def calledRoute (entity : Entity) : RouteAction → Option String
  | .callRoute name _ => if entity.routes.any (·.name == name) then some name else none
  | _ => none

/-- `call_callees`. -/
def callCallees (entity : Entity) (route : Route) : List String :=
  sortedSet ((forEachRouteAction route.body).filterMap (calledRoute entity))

/-- `compute_one`. -/
def computeOne (entity : Entity) (route : Route) : RouteFacts where
  usesMsgValue := routeUsesMsgValue route entity
  localFailSurface := localFailSurface route
  isView := route.returnType.isSome
  hasUnphasedSends := routeHasUnphasedSends route
  phasedNeedsWorldThread := routePhasedNeedsWorldThread route
  callCallees := callCallees entity route

/-- An entity and one of its routes. -/
abbrev RouteKey : Type := String × String

abbrev FactsMap : Type := AList fun _ : RouteKey => RouteFacts

/-- The entries of the facts of an entity, in the order they are inserted. -/
def entityEntries (entity : Entity) : List (RouteKey × RouteFacts) :=
  entity.routes.map fun route => ((entity.name, route.name), computeOne entity route)

/-- `compute_route_facts`. -/
def computeRouteFacts (program : Program) : FactsMap :=
  collect (program.entities.flatMap entityEntries)

/-! ### The closure -/

/-- `FailPropagation`. -/
structure FailPropagation where
  sameEntityCalls : Bool
  crossEntitySends : Bool
  rescueCuts : Bool
deriving DecidableEq

/-- `FailPropagation::EVM_LEAN`. -/
def FailPropagation.evmLeanPolicy : FailPropagation :=
  { sameEntityCalls := true, crossEntitySends := false, rescueCuts := false }

/-- The keys a failure comes from. -/
def calleeKeys (key : RouteKey) (f : RouteFacts) : List RouteKey :=
  f.callCallees.map fun callee => (key.1, callee)

/-- The orders in which the loops of a run see the facts. -/
structure LoopOrders where
  first : Shuffle (Entry RouteKey RouteFacts)
  passes : Schedule (Entry RouteKey RouteFacts)

/-- `fail_closure`. -/
def failClosure (orders : LoopOrders) (fuel : Nat) (facts : FactsMap) (policy : FailPropagation) :
    Option (Marks RouteKey) :=
  let canFail := seed RouteFacts.localFailSurface (orders.first.apply facts.entries)
  if policy.sameEntityCalls then passes calleeKeys facts.entries fuel orders.passes canFail
  else some canFail

/-- `evm_lean_can_fail`. -/
def evmLeanCanFail (orders : LoopOrders) (fuel : Nat) (program : Program) :
    Option (Marks RouteKey) :=
  failClosure orders fuel (computeRouteFacts program) .evmLeanPolicy

/-- `entity_evm_lean_can_fail`; the last order is that of `into_iter`. -/
def entityEvmLeanCanFail (orders : LoopOrders) (drain : Shuffle (Entry RouteKey Bool)) (fuel : Nat)
    (entity : Entity) : Option (Marks String) :=
  (failClosure orders fuel (collect (entityEntries entity)) .evmLeanPolicy).map fun canFail =>
    collect ((drain.apply canFail.entries).map fun e => (e.1.2, e.2))

/-! ### What can fail -/

/-- A call inside the entity. -/
def CallEdge (facts : FactsMap) (entity a b : String) : Prop :=
  ∃ f, facts.lookup (entity, a) = some f ∧ b ∈ f.callCallees

/-- A route that fails of itself is called from the route, over as many calls as it takes. -/
def CanFail (facts : FactsMap) (entity route : String) : Prop :=
  ∃ r, ReflTransGen (CallEdge facts entity) route r ∧
    ∃ f, facts.lookup (entity, r) = some f ∧ f.localFailSurface = true

theorem edge_calleeKeys {facts : FactsMap} {entity a : String} {k : RouteKey} :
    Edge facts calleeKeys (entity, a) k ↔ ∃ b, k = (entity, b) ∧ CallEdge facts entity a b := by
  constructor
  · rintro ⟨f, hf, hk⟩
    obtain ⟨b, hb, rfl⟩ := List.mem_map.mp hk
    exact ⟨b, rfl, f, hf, hb⟩
  · rintro ⟨b, rfl, f, hf, hb⟩
    exact ⟨f, hf, List.mem_map.mpr ⟨b, hb, rfl⟩⟩

theorem reached_iff {facts : FactsMap} {entity route : String} :
    Reached facts calleeKeys RouteFacts.localFailSurface (entity, route) ↔
      CanFail facts entity route := by
  constructor
  · rintro ⟨k, hpath, f, hf, hstart⟩
    have hinside : ∃ r, k = (entity, r) ∧ ReflTransGen (CallEdge facts entity) route r := by
      clear hf
      induction hpath with
      | refl => exact ⟨route, rfl, .refl⟩
      | tail _ hedge ih =>
        obtain ⟨r, rfl, hr⟩ := ih
        obtain ⟨b, rfl, hcall⟩ := edge_calleeKeys.mp hedge
        exact ⟨b, rfl, hr.tail hcall⟩
    obtain ⟨r, rfl, hr⟩ := hinside
    exact ⟨r, hr, f, hf, hstart⟩
  · rintro ⟨r, hpath, f, hf, hstart⟩
    refine ⟨(entity, r), ?_, f, hf, hstart⟩
    clear hf
    induction hpath with
    | refl => exact .refl
    | tail _ hcall ih => exact ih.tail (edge_calleeKeys.mpr ⟨_, rfl, hcall⟩)

theorem failClosure_spec {facts : FactsMap} (policy : FailPropagation)
    (hcalls : policy.sameEntityCalls = true) (orders : LoopOrders) {fuel : Nat}
    (hfuel : facts.entries.length < fuel) :
    ∃ canFail, failClosure orders fuel facts policy = some canFail ∧
      (∀ k, (canFail.lookup k).isSome = true ↔ k ∈ facts) ∧
      ∀ entity route, canFail.lookup (entity, route) = some true ↔ CanFail facts entity route := by
  obtain ⟨canFail, hrun, hkeys, hexact⟩ := saturate_exact calleeKeys
    RouteFacts.localFailSurface hfuel orders.first orders.passes
  refine ⟨canFail, ?_, hkeys, fun entity route => (hexact _).trans reached_iff⟩
  rw [failClosure]
  exact (if_pos hcalls).trans hrun

/-! ### One entity and the whole program -/

section Entities

variable {program : Program} {entity : Entity}

theorem entityEntries_key {e : RouteKey × RouteFacts} (he : e ∈ entityEntries entity) :
    e.1.1 = entity.name := by
  obtain ⟨r, -, rfl⟩ := List.mem_map.mp he
  rfl

theorem nodup_entityEntries (hroutes : (entity.routes.map (·.name)).Nodup) :
    ((entityEntries entity).map Prod.fst).Nodup := by
  have hpairs : (entityEntries entity).map Prod.fst =
      (entity.routes.map (·.name)).map (Prod.mk entity.name) := by
    rw [entityEntries, List.map_map, List.map_map]
    rfl
  rw [hpairs]
  exact hroutes.map fun _ _ heq => (Prod.mk.inj heq).2

theorem key_of_mem_collect (hroutes : (entity.routes.map (·.name)).Nodup) {k : RouteKey}
    (hk : k ∈ collect (entityEntries entity)) : k.1 = entity.name := by
  obtain ⟨f, hf⟩ := Option.isSome_iff_exists.mp (AList.lookup_isSome.mpr hk)
  exact entityEntries_key ((lookup_collect (nodup_entityEntries hroutes)).mp hf)

theorem mem_collect (hroutes : (entity.routes.map (·.name)).Nodup) {r : Route}
    (hr : r ∈ entity.routes) : (entity.name, r.name) ∈ collect (entityEntries entity) := by
  rw [← AList.lookup_isSome, Option.isSome_iff_exists]
  exact ⟨computeOne entity r, (lookup_collect (nodup_entityEntries hroutes)).mpr
    (List.mem_map.mpr ⟨r, hr, rfl⟩)⟩

variable (hnames : (program.entities.map (·.name)).Nodup)
  (hroutes : ∀ e ∈ program.entities, (e.routes.map (·.name)).Nodup)

include hnames hroutes

/-- The facts of the program that are about an entity are those of the entity. -/
theorem lookup_computeRouteFacts (he : entity ∈ program.entities) (route : String) :
    (computeRouteFacts program).lookup (entity.name, route) =
      (collect (entityEntries entity)).lookup (entity.name, route) := by
  have hkeys : ∀ e ∈ program.entities, ((entityEntries e).map Prod.fst).Nodup :=
    fun e he => nodup_entityEntries (hroutes e he)
  have hnodup : ((program.entities.flatMap entityEntries).map Prod.fst).Nodup := by
    rw [List.map_flatMap, List.nodup_flatMap]
    refine ⟨hkeys, (List.pairwise_map.mp hnames).imp ?_⟩
    intro a b hne k ha hb
    obtain ⟨x, hx, rfl⟩ := List.mem_map.mp ha
    obtain ⟨y, hy, hxy⟩ := List.mem_map.mp hb
    exact hne (by rw [← entityEntries_key hx, ← entityEntries_key hy, hxy])
  apply Option.ext
  intro f
  rw [computeRouteFacts, lookup_collect hnodup, lookup_collect (hkeys entity he), List.mem_flatMap]
  constructor
  · rintro ⟨e, he', hmem⟩
    have hname : e.name = entity.name := (entityEntries_key hmem).symm
    have heq : e = entity := List.inj_on_of_nodup_map hnames he' he hname
    exact heq ▸ hmem
  · exact fun hmem => ⟨entity, he, hmem⟩

theorem canFail_computeRouteFacts (he : entity ∈ program.entities) (route : String) :
    CanFail (computeRouteFacts program) entity.name route ↔
      CanFail (collect (entityEntries entity)) entity.name route := by
  have hlookup := lookup_computeRouteFacts hnames hroutes he
  have hedge : CallEdge (computeRouteFacts program) entity.name =
      CallEdge (collect (entityEntries entity)) entity.name := by
    funext a b
    rw [CallEdge, CallEdge, hlookup]
  rw [CanFail, CanFail, hedge]
  simp only [hlookup]

end Entities

/-- The drained map has the marks of the closure. -/
theorem lookup_drained {canFail : Marks RouteKey} {entity route : String}
    (hkeys : ∀ k ∈ canFail, k.1 = entity) (drain : Shuffle (Entry RouteKey Bool)) :
    (collect ((drain.apply canFail.entries).map fun e => (e.1.2, e.2))).lookup route =
      canFail.lookup (entity, route) := by
  have hperm := (drain.perm canFail.entries).map fun e => (e.1.2, e.2)
  have hfirst : ∀ e ∈ canFail.entries, e.1.1 = entity :=
    fun e he => hkeys e.1 (List.mem_map.mpr ⟨e, he, rfl⟩)
  have hnodup : (((drain.apply canFail.entries).map fun e => (e.1.2, e.2)).map Prod.fst).Nodup := by
    rw [(hperm.map Prod.fst).nodup_iff, List.map_map]
    refine (List.nodup_map_iff_inj_on canFail.nodupKeys.nodup).mpr ?_
    intro a ha b hb heq
    have hkey : a.1 = b.1 := Prod.ext ((hfirst a ha).trans (hfirst b hb).symm) heq
    have hb' : (⟨a.1, b.2⟩ : Entry RouteKey Bool) ∈ canFail.entries := by
      rw [hkey]
      exact hb
    have hval : a.2 = b.2 := canFail.nodupKeys.eq_of_mk_mem ha hb'
    exact Sigma.ext hkey (heq_of_eq hval)
  apply Option.ext
  intro v
  rw [lookup_collect hnodup, hperm.mem_iff, List.mem_map]
  constructor
  · rintro ⟨e, he, heq⟩
    cases heq
    rw [← hfirst e he]
    exact AList.mem_lookup_iff.mpr he
  · intro hlook
    exact ⟨⟨(entity, route), v⟩, AList.mem_lookup_iff.mp hlook, rfl⟩

/-- **The closure marks the routes from which a failing one is called**, in whatever order
    it goes over the facts, and the marks of an entity alone are those it has in the program. -/
theorem failClosure_exact :
    (∀ (facts : FactsMap) (policy : FailPropagation), policy.sameEntityCalls = true →
      ∀ (orders : LoopOrders), ∀ fuel > facts.entries.length,
        ∃ canFail, failClosure orders fuel facts policy = some canFail ∧
          (∀ k, (canFail.lookup k).isSome = true ↔ k ∈ facts) ∧
          ∀ entity route,
            canFail.lookup (entity, route) = some true ↔ CanFail facts entity route) ∧
    ∀ program : Program, (program.entities.map (·.name)).Nodup →
      (∀ e ∈ program.entities, (e.routes.map (·.name)).Nodup) →
      ∀ entity ∈ program.entities, ∀ (orders orders' : LoopOrders)
        (drain : Shuffle (Entry RouteKey Bool)),
        ∀ fuel > (computeRouteFacts program).entries.length,
        ∀ fuel' > (collect (entityEntries entity)).entries.length,
          ∃ whole own, evmLeanCanFail orders fuel program = some whole ∧
            entityEvmLeanCanFail orders' drain fuel' entity = some own ∧
            ∀ r ∈ entity.routes, own.lookup r.name = whole.lookup (entity.name, r.name) ∧
              (own.lookup r.name).isSome = true := by
  refine ⟨fun facts policy hcalls orders fuel hfuel => failClosure_spec policy hcalls orders hfuel, ?_⟩
  intro program hnames hroutes entity he orders orders' drain fuel hfuel fuel' hfuel'
  obtain ⟨whole, hwhole, hwkeys, hwexact⟩ := failClosure_spec .evmLeanPolicy rfl orders hfuel
  obtain ⟨marks, hmarks, hkeys, hexact⟩ := failClosure_spec .evmLeanPolicy rfl orders' hfuel'
  have hown : ∀ k ∈ marks, k.1 = entity.name := fun k hk =>
    key_of_mem_collect (hroutes entity he) ((hkeys k).mp (AList.lookup_isSome.mpr hk))
  refine ⟨whole, _, hwhole, by rw [entityEvmLeanCanFail, hmarks, Option.map_some], ?_⟩
  intro r hr
  rw [lookup_drained hown drain]
  have hmem := mem_collect (hroutes entity he) hr
  have hmark := (hkeys _).mpr hmem
  have hmark' := (hwkeys (entity.name, r.name)).mpr (by
    rwa [← AList.lookup_isSome, lookup_computeRouteFacts hnames hroutes he, AList.lookup_isSome])
  refine ⟨?_, hmark⟩
  have hiff := ((hwexact entity.name r.name).trans
    (canFail_computeRouteFacts hnames hroutes he r.name)).trans (hexact entity.name r.name).symm
  obtain ⟨v, hv⟩ := Option.isSome_iff_exists.mp hmark
  obtain ⟨v', hv'⟩ := Option.isSome_iff_exists.mp hmark'
  rw [hv, hv', Option.some.injEq, Option.some.injEq] at hiff
  rw [hv, hv', Bool.eq_iff_iff.mpr hiff]

/-- The orders as they are. -/
def plainOrders : LoopOrders := ⟨.id _, fun _ => .id _⟩

theorem failClosure_exact_hail :
    ∃ whole own, evmLeanCanFail plainOrders 3 (hailProgram []) = some whole ∧
      entityEvmLeanCanFail plainOrders (.id _) 2 (hailing "A" [hail "B"]) = some own ∧
      ∀ r ∈ (hailing "A" [hail "B"]).routes,
        own.lookup r.name = whole.lookup ("A", r.name) ∧ (own.lookup r.name).isSome = true :=
  failClosure_exact.2 (hailProgram []) (by decide) (by decide) (hailing "A" [hail "B"])
    List.mem_cons_self plainOrders plainOrders (.id _) 3 (by decide) 2 (by decide)

end CambrianLang.Analysis
