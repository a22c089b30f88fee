/-
  **The order of the routes of an entity** (`route_sccs`, `analysis/graphs.rs`).

  The routes are grouped by the calls between them, callees first, and a group is put in
  source order.  Here the components stay in the order Tarjan's algorithm finds them.
-/
import CambrianLang.Analysis.EntityOrder
import CambrianLang.Lib.TarjanRuns

namespace CambrianLang.Analysis

open Ast Tarjan

/-! ### The function, with the steps that can fail -/

/-- `tarjan_sccs`, on as much fuel as is given. -/
def tarjanSccsRun (fuel : Nat) (names : List String) (deps : Deps String) (opts : TarjanOptions) :
    Option (List (List String)) := do
  let sccs ← tarjanChecked fuel names deps
  let sccs :=
    if opts.sortSccsBySourceOrder then
      sccs.map (List.insertionSort fun a b => sourceIdx names a ≤ sourceIdx names b)
    else sccs
  return if opts.reverseCondensation then sccs.reverse else sccs

/-- The options of the routes, and the same without the sorting. -/
def naturalOrder (sorted : Bool) : TarjanOptions :=
  { reverseCondensation := false, sortSccsBySourceOrder := sorted }

theorem tarjanSccsRun_eq {fuel : Nat} {names : List String} {deps : Deps String}
    (hfuel : (nodes names deps).length ≤ fuel) (opts : TarjanOptions) :
    tarjanSccsRun fuel names deps opts = some (orderedSccs names deps opts) := by
  rw [tarjanSccsRun, tarjanChecked_eq hfuel]
  rfl

/-! ### Sorting -/

/-- Sorting by source order keeps each component where it is. -/
theorem orderedSccs_perm (names : List String) (deps : Deps String) (sorted : Bool) :
    List.Forall₂ List.Perm (tarjanSccs names deps) (orderedSccs names deps (naturalOrder sorted)) := by
  cases sorted with
  | false => exact List.forall₂_same.mpr fun _ _ => .refl _
  | true =>
    refine List.forall₂_map_right_iff.mpr (List.forall₂_same.mpr ?_)
    exact fun comp _ => (List.perm_insertionSort _ comp).symm

/-- Every component comes in source order. -/
def SourceOrder (names : List String) (sccs : List (List String)) : Prop :=
  ∀ comp ∈ sccs, comp.Pairwise fun a b => sourceIdx names a ≤ sourceIdx names b

theorem orderedSccs_sorted (names : List String) (deps : Deps String) :
    SourceOrder names (orderedSccs names deps (naturalOrder true)) := by
  intro comp hcomp
  obtain ⟨natural, -, rfl⟩ := List.mem_map.mp hcomp
  have htotal : Std.Total fun a b => sourceIdx names a ≤ sourceIdx names b :=
    ⟨fun a b => Nat.le_total (sourceIdx names a) (sourceIdx names b)⟩
  have htrans : IsTrans String fun a b => sourceIdx names a ≤ sourceIdx names b :=
    ⟨fun _ _ _ hab hbc => Nat.le_trans hab hbc⟩
  exact List.pairwise_insertionSort _ natural

/-! ### The components -/

/-- **In their natural order the components are the strongly connected ones, callees first**:
    every run gives them, and sorting changes only the order inside a component. -/
theorem orderedSccs_condensation (names : List String) (deps : Deps String) (sorted : Bool) :
    (∀ fuel ≥ (nodes names deps).length, tarjanSccsRun fuel names deps (naturalOrder sorted) =
      some (orderedSccs names deps (naturalOrder sorted))) ∧
    Condensation names deps (orderedSccs names deps (naturalOrder sorted)) ∧
    List.Forall₂ List.Perm (orderedSccs names deps (naturalOrder false))
      (orderedSccs names deps (naturalOrder true)) ∧
    SourceOrder names (orderedSccs names deps (naturalOrder true)) :=
  ⟨fun _ hfuel => tarjanSccsRun_eq hfuel (naturalOrder sorted),
    (tarjanSccs_condensation names deps).of_perm (orderedSccs_perm names deps sorted),
    orderedSccs_perm names deps true, orderedSccs_sorted names deps⟩

/-- An edge to a name without an entry is not followed, and the name comes later here. -/
theorem unfollowed_edge_later :
    ¬ ∀ (names : List String) (deps : Deps String) (v w : String),
      w ∈ (deps.lookup v).getD [] →
      v ∈ (orderedSccs names deps (naturalOrder false)).flatten →
      w ∈ (orderedSccs names deps (naturalOrder false)).flatten →
      ¬ Together (orderedSccs names deps (naturalOrder false)) v w →
      position (orderedSccs names deps (naturalOrder false)) w <
        position (orderedSccs names deps (naturalOrder false)) v := by
  intro h
  have hsccs : orderedSccs ["caller", "callee"] [("caller", ["callee"])] (naturalOrder false) =
      [["caller"], ["callee"]] := by decide
  have hlt := h ["caller", "callee"] [("caller", ["callee"])] "caller" "callee" (by decide)
  rw [hsccs] at hlt
  exact absurd (hlt (by decide) (by decide) (by unfold Together; decide)) (by decide)

/-! ### The routes of an entity -/

section Routes

variable (program : Program) (entity : Entity)

/-- The route of the entity that an action invokes, by a call or a typed send to itself. -/
def sameEntityCallee (route : Route) (action : RouteAction) : Option String :=
  let own (name : String) := if entity.routes.any (·.name == name) then some name else none
  match action with
  | .callRoute name _ => own name
  | .send (some msg) _ dest _ | .varCall _ msg _ dest _ =>
      match classifyDest dest entity route program with
      | .sameEntity _ => own msg
      | _ => none
  | _ => none

/-- `same_entity_callees`. -/
def sameEntityCallees (route : Route) : List String :=
  sortedSet ((forEachRouteAction route.body).filterMap (sameEntityCallee program entity route))

def routeNames : List String := entity.routes.map (·.name)

/-- The map `compute_route_sccs` works on; a later route of a name replaces an earlier. -/
def routeDeps : Deps String :=
  (entity.routes.map fun r => (r.name, sameEntityCallees program entity r)).reverse

/-- `compute_route_sccs`. -/
def computeRouteSccs : List (List String) :=
  orderedSccs (routeNames entity) (routeDeps program entity) (naturalOrder true)

/-- Among the actions that are walked of the last route `a` one invokes the route `b`. -/
def Calls (a b : String) : Prop :=
  ∃ route, entity.routes.reverse.find? (·.name == a) = some route ∧
    ∃ top ∈ visitedActions route.body, ∃ action, Subaction top action ∧
      sameEntityCallee program entity route action = some b

variable {program entity}

theorem isRoute_of_callee {route : Route} {action : RouteAction} {b : String}
    (h : sameEntityCallee program entity route action = some b) : b ∈ routeNames entity := by
  have hown : ∀ name, (if entity.routes.any (·.name == name) then some name else none) = some b →
      b ∈ routeNames entity := by
    intro name hname
    split at hname
    · rename_i hany
      cases hname
      simpa [routeNames] using hany
    · cases hname
  unfold sameEntityCallee at h
  split at h
  · exact hown _ h
  · split at h
    · exact hown _ h
    · cases h
  · split at h
    · exact hown _ h
    · cases h
  · cases h

theorem routeDeps_lookup (n : String) : (routeDeps program entity).lookup n =
    (entity.routes.reverse.find? (·.name == n)).map (sameEntityCallees program entity) := by
  rw [routeDeps, ← List.map_reverse]
  induction entity.routes.reverse with
  | nil => rfl
  | cons r routes ih =>
    rw [List.map_cons, List.lookup_cons, List.find?_cons]
    by_cases heq : r.name = n
    · simp [heq]
    · rw [beq_eq_false_iff_ne.mpr heq, beq_eq_false_iff_ne.mpr (Ne.symm heq)]
      exact ih

theorem edge_routeDeps {a b : String} : Edge (routeDeps program entity) a b ↔ Calls program entity a b := by
  rw [Edge, routeDeps_lookup, routeDeps_lookup, Calls]
  cases entity.routes.reverse.find? (·.name == a) with
  | none => simp
  | some route =>
    simp only [Option.map_some, Option.getD_some, Option.some.injEq, exists_eq_left',
      sameEntityCallees, mem_sortedSet, List.mem_filterMap, mem_forEachRouteAction]
    constructor
    · rintro ⟨⟨action, ⟨top, htop, hsub⟩, hb⟩, -⟩
      exact ⟨top, htop, action, hsub, hb⟩
    · rintro ⟨top, htop, action, hsub, hb⟩
      refine ⟨⟨action, ⟨top, htop, hsub⟩, hb⟩, ?_⟩
      obtain ⟨r, hr, hname⟩ := List.mem_map.mp (isRoute_of_callee hb)
      rw [Option.isSome_map, List.find?_isSome]
      exact ⟨r, List.mem_reverse.mpr hr, beq_iff_eq.mpr hname⟩

/-- **The groups of routes**: every route is in one, in source order, with those it calls and
    that call it back, and after the groups it calls. -/
theorem computeRouteSccs_condensation (program : Program) (entity : Entity) :
    let sccs := computeRouteSccs program entity
    sccs.flatten.Nodup ∧ (∀ n, n ∈ sccs.flatten ↔ n ∈ routeNames entity) ∧
    (∀ a ∈ routeNames entity, ∀ b, Together sccs a b ↔ Mutual (Calls program entity) a b) ∧
    (∀ a b, Calls program entity a b → ¬ Mutual (Calls program entity) a b →
      position sccs b < position sccs a) ∧
    SourceOrder (routeNames entity) sccs := by
  have hedge : Edge (routeDeps program entity) = Calls program entity :=
    funext fun _ => funext fun _ => propext edge_routeDeps
  obtain ⟨-, honce, hcovers, htogether, hordered⟩ :=
    (orderedSccs_condensation (routeNames entity) (routeDeps program entity) true).2.1
  unfold Reach at hcovers htogether
  rw [hedge] at hcovers htogether hordered
  have hroutes : ∀ n, n ∈ (computeRouteSccs program entity).flatten ↔ n ∈ routeNames entity := by
    intro n
    refine (hcovers n).trans ⟨?_, fun hn => ⟨n, hn, .refl⟩⟩
    rintro ⟨m, hm, hmn⟩
    rcases hmn.cases_tail with rfl | ⟨k, -, route, -, top, -, action, -, hn⟩
    · exact hm
    · exact isRoute_of_callee hn
  refine ⟨honce, hroutes, fun a ha b => htogether a ((hroutes a).mpr ha) b, ?_, orderedSccs_sorted _ _⟩
  intro a b hcall hapart
  obtain ⟨route, hfind, -⟩ := id hcall
  have ha : a ∈ (computeRouteSccs program entity).flatten := by
    refine (hroutes a).mpr (List.mem_map.mpr ⟨route, ?_, ?_⟩)
    · exact List.mem_reverse.mp (List.mem_of_find?_eq_some hfind)
    · have hname := List.find?_some hfind
      exact beq_iff_eq.mp hname
  exact hordered a ha b hcall fun ht => hapart ((htogether a ha b).mp ht)

end Routes

end CambrianLang.Analysis
