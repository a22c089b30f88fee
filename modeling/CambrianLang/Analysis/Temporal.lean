/-
  **The order of member transforms** (V3, `analysis/temporal.rs`): the `^member`
  references collected from transform bodies, the sorted order of the members of a
  route, and the schedule the back ends run a route or phase in.

  Calling `@m(..)` evaluates the macro's body, so the references a body reads are
  those of its expansion; the collector stays in the body itself.
-/
import CambrianLang.Ast.Entity
import CambrianLang.Lib.TopoSort
import CambrianLang.Validate.Diagnostic
import Mathlib.Data.String.Basic

namespace CambrianLang.Analysis

open Ast Traversal TopoSort Validate Relation

/-! ### References -/

/-- The subexpressions `collect_temporal_refs_rec` descends into. -/
def visitedForRefs : Expr → List Expr
  | .addressOf .. | .encode .. => []
  | e => e.children

theorem visitedForRefs_sub {e c : Expr} (h : c ∈ visitedForRefs e) : c ∈ e.children := by
  unfold visitedForRefs at h
  split at h
  · exact absurd h List.not_mem_nil
  · exact absurd h List.not_mem_nil
  · exact h

/-- `collect_temporal_refs`. -/
def collectTemporalRefs : Walker Expr String where
  own
    | .temporalRef name => [name]
    | _ => []
  visited := visitedForRefs
  rank := Expr.rank
  rank_lt h := rank_child_lt (visitedForRefs_sub h)

theorem mem_collectTemporalRefs {e : Expr} {n : String} :
    n ∈ collectTemporalRefs.walk e ↔
      ReflTransGen (fun a b => b ∈ visitedForRefs a) e (.temporalRef n) := by
  rw [Walker.mem_walk]
  constructor
  · rintro ⟨b, hb, hn⟩
    cases b with
    | temporalRef name =>
      rw [List.mem_singleton.mp hn]
      exact hb
    | _ => exact absurd hn List.not_mem_nil
  · exact fun h => ⟨_, h, List.mem_singleton.mpr rfl⟩

/-- Into a subexpression, or from a macro call into the body of the macro. -/
inductive ExpandStep (entity : Entity) : Expr → Expr → Prop
  | child {a b : Expr} (h : b ∈ a.children) : ExpandStep entity a b
  | body {name : String} {args : List Expr} {mac : Macro}
      (h : entity.macros.find? (·.name == name) = some mac) :
      ExpandStep entity (.macroRef name args) mac.body

/-- `^n` occurs in the expression once all macros are expanded. -/
def Reads (entity : Entity) (e : Expr) (n : String) : Prop :=
  ReflTransGen (ExpandStep entity) e (.temporalRef n)

/-- `^n` is read through a macro, or below a subexpression that is not visited. -/
def Hidden (entity : Entity) (visited : Expr → List Expr) (e : Expr) (n : String) : Prop :=
  ∃ a b, ReflTransGen (fun x y => ExpandStep entity x y ∧ y ∈ visited x) e a ∧
    ExpandStep entity a b ∧ b ∉ visited a ∧ Reads entity b n

theorem Hidden.reads {entity : Entity} {visited : Expr → List Expr} {e : Expr} {n : String}
    (h : Hidden entity visited e n) : Reads entity e n := by
  obtain ⟨a, b, hpre, hstep, -, hpost⟩ := h
  have hfront : ReflTransGen (ExpandStep entity) e a := ReflTransGen.mono (fun _ _ h => h.1) _ _ hpre
  exact hfront.trans (.head hstep hpost)

theorem Reads.visited_or_hidden {entity : Entity} {e : Expr} {n : String} (h : Reads entity e n)
    (visited : Expr → List Expr) :
    ReflTransGen (fun a b => b ∈ visited a) e (.temporalRef n) ∨ Hidden entity visited e n := by
  rcases path_split h with hall | hskip
  · exact Or.inl (ReflTransGen.mono (fun _ _ h => h.2) _ _ hall)
  · exact Or.inr hskip

/-! ### The order of a route -/

/-- Each entry once, in the order of first occurrence. -/
def firstOccurrences (xs : List String) : List String := xs.reverse.dedup.reverse

theorem mem_firstOccurrences {xs : List String} {x : String} : x ∈ firstOccurrences xs ↔ x ∈ xs := by
  rw [firstOccurrences, List.mem_reverse, List.mem_dedup, List.mem_reverse]

theorem nodup_firstOccurrences (xs : List String) : (firstOccurrences xs).Nodup :=
  List.nodup_reverse.mpr (List.nodup_dedup _)

/-- The entry of `route_transforms` for a route. -/
def routeTransforms (entity : Entity) (routeName : String) : List (String × Expr) :=
  entity.members.flatMap fun m =>
    (m.transforms.filter (·.routeName == routeName)).map fun t => (m.name, t.body)

/-- The keys of `route_transforms`. -/
def transformedRoutes (entity : Entity) : List String :=
  firstOccurrences (entity.members.flatMap fun m => m.transforms.map (·.routeName))

def membersInRoute (entity : Entity) (routeName : String) : List String :=
  firstOccurrences ((routeTransforms entity routeName).map Prod.fst)

def isMember (entity : Entity) (n : String) : Bool := entity.members.any (·.name == n)

/-- The entry of a member in `deps`. -/
def temporalDeps (entity : Entity) (routeName member : String) : List String :=
  (((routeTransforms entity routeName).filter (·.1 == member)).flatMap fun t =>
    collectTemporalRefs.walk t.2).filter (isMember entity)

structure TemporalOrder where
  routeName : String
  order : List String
deriving DecidableEq

/-- `topological_sort_owned`; the queue is kept sorted. -/
def sortMembers (entity : Entity) (routeName : String) : Except (List String) (List String) :=
  topologicalSort (List.insertionSort (· ≤ ·)) (membersInRoute entity routeName)
    (temporalDeps entity routeName)

/-- The orders and the V3 diagnostics of `build_temporal_orders`. -/
def temporalOrders (entity : Entity) : List TemporalOrder :=
  (transformedRoutes entity).filterMap fun routeName =>
    match sortMembers entity routeName with
    | .ok order => some { routeName := routeName, order := order }
    | .error _ => none

def checkTemporalDag (entity : Entity) : List Diagnostic :=
  (transformedRoutes entity).flatMap fun routeName =>
    ((routeTransforms entity routeName).flatMap fun t =>
      ((collectTemporalRefs.walk t.2).filter (!isMember entity ·)).map fun tref =>
        .error "V3" ("Temporal reference '^" ++ tref ++ "' in member '" ++ t.1 ++ "' route '" ++
          routeName ++ "' does not refer to a known member")) ++
    match sortMembers entity routeName with
    | .ok _ => []
    | .error cycle =>
        [.error "V3" ("Temporal cycle in route '" ++ routeName ++ "': " ++
          " -> ".intercalate cycle)]

/-! ### The schedule -/

/-- `collect_transforms`. -/
def collectTransforms (entity : Entity) (routeName : String) (phase : Option String) :
    List (Member × MemberTransform) :=
  (entity.members.filter (!·.isIdentity)).flatMap fun m =>
    ((m.transforms.filter (·.routeName == routeName)).filter (·.phase == phase)).map fun t => (m, t)

/-- The position a transform is sorted by; a member without one goes last. -/
def orderKey (order : List String) (rt : Member × MemberTransform) : Nat := order.idxOf rt.1.name

/-- `order_transforms_temporally`. -/
def orderTransformsTemporally (transforms : List (Member × MemberTransform))
    (orders : List TemporalOrder) (routeName : String) : List (Member × MemberTransform) :=
  match orders.find? (·.routeName == routeName) with
  | some ord => transforms.insertionSort fun a b => orderKey ord.order a ≤ orderKey ord.order b
  | none => transforms

/-- The transforms of a route or phase in the order they run. -/
def schedule (entity : Entity) (routeName : String) (phase : Option String) :
    List (Member × MemberTransform) :=
  orderTransformsTemporally (collectTransforms entity routeName phase) (temporalOrders entity) routeName

/-! ### What an accepted entity's orders are -/

theorem mem_routeTransforms {entity : Entity} {routeName n : String} {body : Expr} :
    (n, body) ∈ routeTransforms entity routeName ↔
      ∃ m ∈ entity.members, m.name = n ∧ ∃ t ∈ m.transforms, t.routeName = routeName ∧ t.body = body := by
  simp only [routeTransforms, List.mem_flatMap, List.mem_map, List.mem_filter, beq_iff_eq,
    Prod.mk.injEq]
  constructor
  · rintro ⟨m, hm, t, ⟨ht, hroute⟩, hname, hbody⟩
    exact ⟨m, hm, hname, t, ht, hroute, hbody⟩
  · rintro ⟨m, hm, hname, t, ht, hroute, hbody⟩
    exact ⟨m, hm, t, ⟨ht, hroute⟩, hname, hbody⟩

theorem mem_membersInRoute {entity : Entity} {routeName n : String} :
    n ∈ membersInRoute entity routeName ↔
      ∃ m ∈ entity.members, m.name = n ∧ ∃ t ∈ m.transforms, t.routeName = routeName := by
  rw [membersInRoute, mem_firstOccurrences, List.mem_map]
  constructor
  · rintro ⟨⟨k, body⟩, hmem, rfl⟩
    obtain ⟨m, hm, hname, t, ht, hroute, -⟩ := mem_routeTransforms.mp hmem
    exact ⟨m, hm, hname, t, ht, hroute⟩
  · rintro ⟨m, hm, hname, t, ht, hroute⟩
    exact ⟨(n, t.body), mem_routeTransforms.mpr ⟨m, hm, hname, t, ht, hroute, rfl⟩, rfl⟩

theorem mem_transformedRoutes {entity : Entity} {m : Member} {t : MemberTransform}
    (hm : m ∈ entity.members) (ht : t ∈ m.transforms) : t.routeName ∈ transformedRoutes entity := by
  rw [transformedRoutes, mem_firstOccurrences, List.mem_flatMap]
  exact ⟨m, hm, List.mem_map.mpr ⟨t, ht, rfl⟩⟩

theorem mem_temporalDeps {entity : Entity} {routeName member n : String} :
    n ∈ temporalDeps entity routeName member ↔ isMember entity n = true ∧
      ∃ body, (member, body) ∈ routeTransforms entity routeName ∧ n ∈ collectTemporalRefs.walk body := by
  simp only [temporalDeps, List.mem_filter, List.mem_flatMap, beq_iff_eq]
  constructor
  · rintro ⟨⟨⟨k, body⟩, ⟨hmem, rfl⟩, hn⟩, hmember⟩
    exact ⟨hmember, body, hmem, hn⟩
  · rintro ⟨hmember, body, hmem, hn⟩
    exact ⟨⟨(member, body), ⟨hmem, rfl⟩, hn⟩, hmember⟩

theorem sortMembers_ok {entity : Entity} (h : NoErrors (checkTemporalDag entity)) {routeName : String}
    (hroute : routeName ∈ transformedRoutes entity) : ∃ order, sortMembers entity routeName = .ok order := by
  rw [checkTemporalDag, noErrors_flatMap] at h
  have hlast := (noErrors_append.mp (h routeName hroute)).2
  cases hsort : sortMembers entity routeName with
  | ok order => exact ⟨order, rfl⟩
  | error cycle =>
    rw [hsort] at hlast
    exact absurd rfl (hlast _ (List.mem_singleton.mpr rfl))

/-- Every collected reference names a member. -/
theorem isMember_of_collected {entity : Entity} (h : NoErrors (checkTemporalDag entity))
    {m : Member} (hm : m ∈ entity.members) {t : MemberTransform} (ht : t ∈ m.transforms) {n : String}
    (hn : n ∈ collectTemporalRefs.walk t.body) : isMember entity n = true := by
  rw [checkTemporalDag, noErrors_flatMap] at h
  have hfirst := (noErrors_append.mp (h t.routeName (mem_transformedRoutes hm ht))).1
  rw [noErrors_flatMap] at hfirst
  have hbody := hfirst (m.name, t.body) (mem_routeTransforms.mpr ⟨m, hm, rfl, t, ht, rfl, rfl⟩)
  by_contra hnot
  rw [Bool.not_eq_true] at hnot
  refine hbody _ (List.mem_map.mpr ⟨n, List.mem_filter.mpr ⟨hn, ?_⟩, rfl⟩) rfl
  rw [hnot]
  rfl

theorem find_temporalOrders {entity : Entity} {routeName : String} {ord : TemporalOrder}
    (h : (temporalOrders entity).find? (·.routeName == routeName) = some ord) :
    sortMembers entity routeName = .ok ord.order := by
  have hname : ord.routeName = routeName := by simpa using List.find?_some h
  obtain ⟨rn, -, heq⟩ := List.mem_filterMap.mp (List.mem_of_find?_eq_some h)
  cases hsort : sortMembers entity rn with
  | error cycle =>
    rw [hsort] at heq
    cases heq
  | ok order =>
    rw [hsort] at heq
    cases heq
    cases hname
    exact hsort

theorem isSome_find_temporalOrders {entity : Entity} (h : NoErrors (checkTemporalDag entity))
    {routeName : String} (hroute : routeName ∈ transformedRoutes entity) :
    ((temporalOrders entity).find? (·.routeName == routeName)).isSome = true := by
  obtain ⟨order, hsort⟩ := sortMembers_ok h hroute
  rw [List.find?_isSome]
  refine ⟨{ routeName := routeName, order := order }, ?_, by simp⟩
  exact List.mem_filterMap.mpr ⟨routeName, hroute, by rw [hsort]⟩

theorem perm_insertionSort_names (l : List String) : (List.insertionSort (· ≤ ·) l).Perm l :=
  List.perm_insertionSort _ l

/-- A dependency of a sorted member comes before it. -/
theorem idxOf_lt_of_deps {entity : Entity} {routeName : String} {order : List String}
    (h : sortMembers entity routeName = .ok order) {n d : String}
    (hn : n ∈ membersInRoute entity routeName) (hd : d ∈ temporalDeps entity routeName n)
    (hdn : d ∈ membersInRoute entity routeName) : order.idxOf d < order.idxOf n := by
  have hnodup := nodup_firstOccurrences ((routeTransforms entity routeName).map Prod.fst)
  obtain ⟨hperm, hranked⟩ := topologicalSort_ok perm_insertionSort_names hnodup h
  exact hranked.idxOf_lt (hperm.nodup_iff.mpr hnodup) (hperm.mem_iff.mpr hn) hd hdn

theorem mem_collectTransforms {entity : Entity} {routeName : String} {phase : Option String}
    {rt : Member × MemberTransform} (h : rt ∈ collectTransforms entity routeName phase) :
    rt.1 ∈ entity.members ∧ rt.2 ∈ rt.1.transforms ∧ rt.2.routeName = routeName := by
  obtain ⟨m, hm, hrt⟩ := List.mem_flatMap.mp h
  obtain ⟨t, ht, rfl⟩ := List.mem_map.mp hrt
  have hroute := List.mem_filter.mp (List.mem_of_mem_filter ht)
  exact ⟨List.mem_of_mem_filter hm, hroute.1, by simpa using hroute.2⟩

theorem schedule_eq {entity : Entity} (h : NoErrors (checkTemporalDag entity)) {routeName : String}
    {phase : Option String} (hne : collectTransforms entity routeName phase ≠ []) :
    ∃ order, sortMembers entity routeName = .ok order ∧ schedule entity routeName phase =
      (collectTransforms entity routeName phase).insertionSort
        fun a b => orderKey order a ≤ orderKey order b := by
  obtain ⟨rt, hrt⟩ := List.exists_mem_of_ne_nil _ hne
  obtain ⟨hm, ht, hroute⟩ := mem_collectTransforms hrt
  have hkey := mem_transformedRoutes hm ht
  rw [hroute] at hkey
  obtain ⟨ord, hord⟩ := Option.isSome_iff_exists.mp (isSome_find_temporalOrders h hkey)
  refine ⟨ord.order, find_temporalOrders hord, ?_⟩
  rw [schedule, orderTransformsTemporally, hord]

/-- **The schedule respects the dependencies**: after a transform of a member no
    transform of a member it depends on runs. -/
theorem schedule_pairwise {entity : Entity} (h : NoErrors (checkTemporalDag entity))
    (routeName : String) (phase : Option String) :
    (schedule entity routeName phase).Pairwise fun r t =>
      t.1.name ∉ temporalDeps entity routeName r.1.name := by
  by_cases hne : collectTransforms entity routeName phase = []
  · have hnil : schedule entity routeName phase = [] := by
      rw [schedule, hne, orderTransformsTemporally]
      cases (temporalOrders entity).find? (·.routeName == routeName) with
      | some ord => rfl
      | none => rfl
    rw [hnil]
    exact List.Pairwise.nil
  · obtain ⟨order, hsort, heq⟩ := schedule_eq h hne
    have hin : ∀ rt ∈ schedule entity routeName phase,
        rt.1.name ∈ membersInRoute entity routeName := by
      intro rt hrt
      rw [heq, List.mem_insertionSort] at hrt
      obtain ⟨hm, ht, hroute⟩ := mem_collectTransforms hrt
      exact mem_membersInRoute.mpr ⟨rt.1, hm, rfl, rt.2, ht, hroute⟩
    have hsorted : (schedule entity routeName phase).Pairwise
        fun r t => orderKey order r ≤ orderKey order t := by
      rw [heq]
      have : Std.Total fun a b : Member × MemberTransform => orderKey order a ≤ orderKey order b :=
        ⟨fun a b => Nat.le_total _ _⟩
      have : IsTrans (Member × MemberTransform) fun a b => orderKey order a ≤ orderKey order b :=
        ⟨fun _ _ _ hab hbc => Nat.le_trans hab hbc⟩
      exact List.pairwise_insertionSort _ _
    refine hsorted.imp_of_mem ?_
    intro r t hr ht hle hdep
    have hlt := idxOf_lt_of_deps hsort (hin r hr) hdep (hin t ht)
    exact absurd hlt (Nat.not_lt.mpr hle)

/-! ### Sorting by any dependency map -/

/-- A map from names to the names they depend on: its entries in the order of iteration. -/
structure DependencyMap where
  entries : List (String × List String)
  nodup : (entries.map Prod.fst).Nodup

/-- The edges that are counted, from a dependency to the name that has it. -/
def listedEdges (nodes : List String) (deps : DependencyMap) : List (String × String) :=
  deps.entries.flatMap fun entry =>
    (entry.2.filter (· ∈ nodes)).map fun dep => (dep, entry.1)

/-- `queue.sort()`. -/
def sortNames (queue : List String) : List String := queue.insertionSort (· ≤ ·)

/-- `in_degree` before the loop. -/
def inDegreeOf (edges : List (String × String)) (n : String) : Nat := edges.countP (·.2 = n)

/-- `adj`. -/
def dependentsOf (edges : List (String × String)) (v : String) : List String :=
  (edges.filter (·.1 = v)).map Prod.snd

/-- The queue, degrees and result the loop starts from. -/
def startSort (nodes : List String) (edges : List (String × String)) : TopoSort.State String where
  inDegree := inDegreeOf edges
  queue := sortNames (nodes.filter (inDegreeOf edges · = 0))
  result := []

/-- What is left when the loop ends; it pops a listed name or the end of an edge. -/
def finishedSort (nodes : List String) (edges : List (String × String)) : TopoSort.State String :=
  runOver sortNames (dependentsOf edges) (nodes.length + edges.length) (startSort nodes edges)

/-- `topological_sort_owned`. -/
def topologicalSortOwned (nodes : List String) (deps : DependencyMap) :
    Except (List String) (List String) :=
  let result := (finishedSort nodes (listedEdges nodes deps)).result
  if result.length = nodes.length then .ok result else .error (nodes.filter (· ∉ result))

/-- A listed name depends on a listed name. -/
def DependsOn (nodes : List String) (deps : DependencyMap) (a b : String) : Prop :=
  a ∈ nodes ∧ b ∈ nodes ∧ ∃ ds, (a, ds) ∈ deps.entries ∧ b ∈ ds

/-- A name that is not listed has no listed dependency. -/
def KeysListed (nodes : List String) (deps : DependencyMap) : Prop :=
  ∀ entry ∈ deps.entries, (∃ dep ∈ entry.2, dep ∈ nodes) → entry.1 ∈ nodes

section TopologicalSortOwned

variable {nodes nodes' : List String} {deps deps' : DependencyMap} {edges edges' : List (String × String)}

theorem mem_listedEdges {d n : String} :
    (d, n) ∈ listedEdges nodes deps ↔ d ∈ nodes ∧ ∃ ds, (n, ds) ∈ deps.entries ∧ d ∈ ds := by
  simp only [listedEdges, List.mem_flatMap, List.mem_map, List.mem_filter, decide_eq_true_eq,
    Prod.mk.injEq, Prod.exists]
  constructor
  · rintro ⟨key, ds, hentry, dep, ⟨hdep, hlisted⟩, rfl, rfl⟩
    exact ⟨hlisted, ds, hentry, hdep⟩
  · rintro ⟨hlisted, ds, hentry, hdep⟩
    exact ⟨n, ds, hentry, d, ⟨hdep, hlisted⟩, rfl, rfl⟩

/-- The listed dependencies of a name. -/
def listedDeps (edges : List (String × String)) (n : String) : List String :=
  (edges.filter (·.2 = n)).map Prod.fst

theorem mem_listedDeps {d n : String} : d ∈ listedDeps edges n ↔ (d, n) ∈ edges := by
  simp [listedDeps]

theorem count_dependentsOf (edges : List (String × String)) (v n : String) :
    (dependentsOf edges v).count n = (listedDeps edges n).count v := by
  induction edges with
  | nil => rfl
  | cons e edges ih =>
    rw [dependentsOf, listedDeps] at ih ⊢
    by_cases hv : e.1 = v
    · by_cases hn : e.2 = n
      · simp [hv, hn, ih]
      · simp [hv, hn, ih]
    · by_cases hn : e.2 = n
      · simp [hv, hn, ih]
      · simp [hv, hn, ih]

theorem inDegreeOf_eq (edges : List (String × String)) (n : String) :
    inDegreeOf edges n = (listedDeps edges n).length := by
  rw [inDegreeOf, listedDeps, List.length_map, List.countP_eq_length_filter]

/-- The neighbours are those of the dependencies, in another order. -/
theorem dependentsOf_perm (hnodup : nodes.Nodup) (hkeys : KeysListed nodes deps) (v : String) :
    (dependentsOf (listedEdges nodes deps) v).Perm
      (adj nodes (listedDeps (listedEdges nodes deps)) v) := by
  rw [List.perm_iff_count]
  intro n
  rw [count_dependentsOf]
  by_cases hn : n ∈ nodes
  · rw [count_adj hnodup hn]
  · have hnone : listedDeps (listedEdges nodes deps) n = [] := by
      rw [List.eq_nil_iff_forall_not_mem]
      intro d hd
      obtain ⟨hdn, ds, hentry, hdep⟩ := mem_listedEdges.mp (mem_listedDeps.mp hd)
      exact hn (hkeys (n, ds) hentry ⟨d, hdep, hdn⟩)
    rw [hnone, List.count_nil, List.count_eq_zero.mpr fun hmem => hn (mem_nodes_of_mem_adj hmem)]

theorem perm_sortNames (l : List String) : (sortNames l).Perm l := List.perm_insertionSort _ l

theorem canonical_sortNames : Canonical sortNames := by
  intro l l' h
  have hperm : (sortNames l).Perm (sortNames l') :=
    (perm_sortNames l).trans (h.trans (perm_sortNames l').symm)
  exact hperm.eq_of_pairwise' (List.pairwise_insertionSort _ l) (List.pairwise_insertionSort _ l')

theorem startSort_eq (nodes : List String) (deps : DependencyMap) :
    startSort nodes (listedEdges nodes deps) =
      initial sortNames nodes (listedDeps (listedEdges nodes deps)) := by
  have hdegree : inDegreeOf (listedEdges nodes deps) = fun n =>
      (listedDeps (listedEdges nodes deps) n).countP (· ∈ nodes) := by
    funext n
    rw [inDegreeOf_eq, eq_comm, List.countP_eq_length]
    intro d hd
    exact decide_eq_true (mem_listedEdges.mp (mem_listedDeps.mp hd)).1
  rw [startSort, initial, hdegree]

/-- Where the keys are listed, it is the sort of the nodes by their listed dependencies. -/
theorem topologicalSortOwned_eq (hnodup : nodes.Nodup) (hkeys : KeysListed nodes deps) :
    topologicalSortOwned nodes deps =
      topologicalSort sortNames nodes (listedDeps (listedEdges nodes deps)) := by
  have hfinished : finishedSort nodes (listedEdges nodes deps) =
      run sortNames nodes (listedDeps (listedEdges nodes deps)) nodes.length
        (initial sortNames nodes (listedDeps (listedEdges nodes deps))) := by
    have hstart := @inv_initial _ _ sortNames nodes (listedDeps (listedEdges nodes deps))
      perm_sortNames hnodup
    obtain ⟨-, -, hdone⟩ := run_spec perm_sortNames hnodup nodes.length _ hstart .nil
      (Nat.le_add_left _ _)
    rw [run_eq_runOver] at hdone ⊢
    rw [finishedSort, startSort_eq,
      runOver_congr perm_sortNames canonical_sortNames (dependentsOf_perm hnodup hkeys), runOver_add,
      runOver_of_done hdone]
  rw [topologicalSortOwned, topologicalSort, hfinished]

/-- The loop does not see the order of the nodes and of the edges. -/
theorem finishedSort_congr (hnodes : nodes'.Perm nodes) (hedges : edges'.Perm edges) :
    finishedSort nodes' edges' = finishedSort nodes edges := by
  have hdegree : inDegreeOf edges' = inDegreeOf edges := by
    funext n
    exact hedges.countP_eq _
  have hstart : startSort nodes' edges' = startSort nodes edges := by
    rw [startSort, startSort, hdegree,
      canonical_sortNames _ _ (hnodes.filter fun n => decide (inDegreeOf edges n = 0))]
  have hneighbours : ∀ v, (dependentsOf edges' v).Perm (dependentsOf edges v) :=
    fun v => (hedges.filter _).map _
  rw [finishedSort, finishedSort, hstart, hnodes.length_eq, hedges.length_eq,
    runOver_congr perm_sortNames canonical_sortNames hneighbours]

/-- The same nodes and edges in another order give the same order, or the same names that
    are left. -/
theorem topologicalSortOwned_congr (hnodes : nodes'.Perm nodes)
    (hedges : (listedEdges nodes' deps').Perm (listedEdges nodes deps)) :
    (∀ order, topologicalSortOwned nodes' deps' = .ok order ↔
      topologicalSortOwned nodes deps = .ok order) ∧
    ∀ left, topologicalSortOwned nodes deps = .error left →
      ∃ left', topologicalSortOwned nodes' deps' = .error left' ∧ left'.Perm left := by
  rw [topologicalSortOwned, topologicalSortOwned, finishedSort_congr hnodes hedges, hnodes.length_eq]
  set result := (finishedSort nodes (listedEdges nodes deps)).result
  by_cases hlen : result.length = nodes.length
  · rw [if_pos hlen, if_pos hlen]
    exact ⟨fun order => Iff.rfl, fun left h => nomatch h⟩
  · rw [if_neg hlen, if_neg hlen]
    refine ⟨fun order => ⟨fun h => (nomatch h), fun h => (nomatch h)⟩, fun left h => ?_⟩
    cases h
    exact ⟨_, rfl, hnodes.filter _⟩

theorem nodup_membersInRoute (entity : Entity) (routeName : String) :
    (membersInRoute entity routeName).Nodup := nodup_firstOccurrences _

/-- The map of a route, with an entry for each of its members. -/
def memberDependencies (entity : Entity) (routeName : String) : DependencyMap where
  entries := (membersInRoute entity routeName).map fun m => (m, temporalDeps entity routeName m)
  nodup := by
    rw [List.map_map]
    exact (List.map_id _).symm ▸ nodup_membersInRoute entity routeName

theorem keysListed_members (entity : Entity) (routeName : String) :
    KeysListed (membersInRoute entity routeName) (memberDependencies entity routeName) := by
  intro entry hentry _
  obtain ⟨m, hm, rfl⟩ := List.mem_map.mp hentry
  exact hm

/-- Among entries with different keys only the one with the key counts. -/
theorem listedDeps_flatMap {keys : List String} (hnodup : keys.Nodup) (values : String → List String)
    (n : String) :
    listedDeps (keys.flatMap fun key => (values key).map fun dep => (dep, key)) n =
      if n ∈ keys then values n else [] := by
  induction keys with
  | nil => rfl
  | cons key keys ih =>
    obtain ⟨hkey, hkeys⟩ := List.nodup_cons.mp hnodup
    have hrest := ih hkeys
    rw [listedDeps] at hrest ⊢
    rw [List.flatMap_cons, List.filter_append, List.map_append, hrest]
    by_cases hn : n = key
    · subst hn
      simp [hkey, List.filter_map, Function.comp_def]
    · have hother : ¬ key = n := fun h => hn h.symm
      simp [hn, hother, List.filter_map, Function.comp_def]

theorem listedDeps_members (entity : Entity) (routeName : String) :
    listedDeps (listedEdges (membersInRoute entity routeName) (memberDependencies entity routeName)) =
      listed (membersInRoute entity routeName) (temporalDeps entity routeName) := by
  funext n
  have hedges : listedEdges (membersInRoute entity routeName) (memberDependencies entity routeName) =
      (membersInRoute entity routeName).flatMap fun key =>
        (listed (membersInRoute entity routeName) (temporalDeps entity routeName) key).map
          fun dep => (dep, key) := by
    rw [listedEdges, memberDependencies, List.flatMap_map]
    rfl
  rw [hedges, listedDeps_flatMap (nodup_membersInRoute entity routeName)]
  by_cases hn : n ∈ membersInRoute entity routeName
  · rw [if_pos hn]
  · rw [if_neg hn]
    -- a member without a transform in the route has no reference there
    have hnone : (routeTransforms entity routeName).filter (·.1 == n) = [] := by
      rw [List.filter_eq_nil_iff]
      intro t ht heq
      exact hn (mem_firstOccurrences.mpr (List.mem_map.mpr ⟨t, ht, eq_of_beq heq⟩))
    rw [listed, temporalDeps, hnone]
    rfl

/-- The members of a route are sorted by the map of the route, whose keys are the members. -/
theorem sortMembers_eq (entity : Entity) (routeName : String) :
    sortMembers entity routeName =
      topologicalSortOwned (membersInRoute entity routeName) (memberDependencies entity routeName) := by
  have hnodup := nodup_membersInRoute entity routeName
  rw [topologicalSortOwned_eq hnodup (keysListed_members entity routeName), listedDeps_members,
    topologicalSort_listed perm_sortNames hnodup]
  rfl

theorem depends_iff {a b : String} :
    Depends nodes (listedDeps (listedEdges nodes deps)) a b ↔ DependsOn nodes deps a b := by
  rw [Depends, DependsOn, mem_listedDeps, mem_listedEdges]
  tauto

/-- **Sorting by a dependency map** whose keys with a listed dependency are listed: it succeeds
exactly when no listed name depends on itself through listed names, a successful sort lists
the nodes behind their dependencies, and neither the order of the nodes nor that of the edges
changes the sorted names or which names are left. -/
theorem topologicalSortOwned_spec (nodes : List String) (deps : DependencyMap) (hnodup : nodes.Nodup)
    (hkeys : KeysListed nodes deps) :
    ((∃ order, topologicalSortOwned nodes deps = .ok order) ↔
      ∀ v, ¬ TransGen (DependsOn nodes deps) v v) ∧
    (∀ order, topologicalSortOwned nodes deps = .ok order →
      order.Perm nodes ∧ ∀ before n after, order = before ++ n :: after →
        ∀ d, DependsOn nodes deps n d → d ∈ before) ∧
    ∀ nodes' deps', nodes'.Perm nodes →
      (listedEdges nodes' deps').Perm (listedEdges nodes deps) →
      (∀ order, topologicalSortOwned nodes' deps' = .ok order ↔
        topologicalSortOwned nodes deps = .ok order) ∧
      ∀ left, topologicalSortOwned nodes deps = .error left →
        ∃ left', topologicalSortOwned nodes' deps' = .error left' ∧ left'.Perm left := by
  have hdepends : Depends nodes (listedDeps (listedEdges nodes deps)) = DependsOn nodes deps := by
    funext a b
    exact propext depends_iff
  refine ⟨?_, ?_, fun nodes' deps' => topologicalSortOwned_congr⟩
  · rw [topologicalSortOwned_eq hnodup hkeys, topologicalSort_isOk_iff perm_sortNames hnodup, hdepends]
  · intro order horder
    rw [topologicalSortOwned_eq hnodup hkeys] at horder
    obtain ⟨hperm, hranked⟩ := topologicalSort_ok perm_sortNames hnodup horder
    refine ⟨hperm, fun before n after hsplit d hd => ?_⟩
    obtain ⟨-, hdn, hdep⟩ := depends_iff.mpr hd
    exact hranked.before hsplit hdep hdn

/-- Two members, one of which depends on the other twice. -/
theorem topologicalSortOwned_spec_pair :
    ((∃ order, topologicalSortOwned ["a", "b"] ⟨[("b", ["a", "a"]), ("a", [])], by decide⟩ = .ok order) ↔
      ∀ v, ¬ TransGen (DependsOn ["a", "b"] ⟨[("b", ["a", "a"]), ("a", [])], by decide⟩) v v) :=
  (topologicalSortOwned_spec ["a", "b"] ⟨[("b", ["a", "a"]), ("a", [])], by decide⟩ (by decide)
    (by simp [KeysListed])).1

/-- A key that is not listed takes a place in the result when its dependencies are placed. -/
theorem topologicalSortOwned_unlisted_key :
    ¬ ∀ (nodes : List String) (deps : DependencyMap), nodes.Nodup →
      ((∃ order, topologicalSortOwned nodes deps = .ok order) ↔
        ∀ v, ¬ TransGen (DependsOn nodes deps) v v) := by
  intro hclaim
  have hsorted := (hclaim ["a"] ⟨[("k", ["a"])], by decide⟩ (by decide)).mpr (by
    intro v hcycle
    obtain ⟨w, hstep, -⟩ := TransGen.head'_iff.mp hcycle
    obtain ⟨hv, -, ds, hentry, -⟩ := hstep
    rw [List.mem_singleton] at hv hentry
    rw [hv] at hentry
    exact absurd (congrArg Prod.fst hentry) (show ¬ "a" = "k" by decide))
  obtain ⟨order, horder⟩ := hsorted
  have hleft : topologicalSortOwned ["a"] ⟨[("k", ["a"])], by decide⟩ = .error [] := by decide
  rw [hleft] at horder
  cases horder

end TopologicalSortOwned

section Declared

variable {entity entity' : Entity} (hmembers : entity'.members.Perm entity.members)

include hmembers

theorem routeTransforms_perm (routeName : String) :
    (routeTransforms entity' routeName).Perm (routeTransforms entity routeName) :=
  hmembers.flatMap_right _

theorem temporalDeps_perm (routeName m : String) :
    (temporalDeps entity' routeName m).Perm (temporalDeps entity routeName m) := by
  have hmember : isMember entity' = isMember entity := by
    funext n
    rw [Bool.eq_iff_iff, isMember, isMember, List.any_eq_true, List.any_eq_true]
    simp only [hmembers.mem_iff]
  rw [temporalDeps, temporalDeps, hmember]
  exact (((routeTransforms_perm hmembers routeName).filter _).flatMap_right _).filter _

theorem membersInRoute_perm (routeName : String) :
    (membersInRoute entity' routeName).Perm (membersInRoute entity routeName) := by
  rw [List.perm_ext_iff_of_nodup (nodup_membersInRoute ..) (nodup_membersInRoute ..)]
  intro m
  simp only [membersInRoute, mem_firstOccurrences,
    ((routeTransforms_perm hmembers routeName).map Prod.fst).mem_iff]

theorem listedEdges_perm (routeName : String) :
    (listedEdges (membersInRoute entity' routeName) (memberDependencies entity' routeName)).Perm
      (listedEdges (membersInRoute entity routeName) (memberDependencies entity routeName)) := by
  have hnodes := membersInRoute_perm hmembers routeName
  simp only [listedEdges, memberDependencies, List.flatMap_map, hnodes.mem_iff]
  refine hnodes.flatMap fun m _ => ((temporalDeps_perm hmembers routeName m).filter _).map _

/-- **The order of declaration does not matter** to the order of the updates of a route, nor to
    which members are reported when there is none. -/
theorem sortMembers_declared (routeName : String) :
    (∀ order, sortMembers entity' routeName = .ok order ↔ sortMembers entity routeName = .ok order) ∧
      ∀ left, sortMembers entity routeName = .error left →
        ∃ left', sortMembers entity' routeName = .error left' ∧ left'.Perm left := by
  rw [sortMembers_eq, sortMembers_eq]
  exact topologicalSortOwned_congr (membersInRoute_perm hmembers routeName)
    (listedEdges_perm hmembers routeName)

end Declared

/-- Two members, one of which reads the other, declared either way. -/
theorem sortMembers_declared_pair :
    let member (name ref : String) : Member :=
      { name, ty := .simple "u8", isIdentity := false, defaultValue := none
        transforms := [{ routeName := "set", phase := none, params := [], body := .temporalRef ref }] }
    let entity (members : List Member) : Entity :=
      ⟨"Pair", [], [], [], [], [], [], members⟩
    ∀ order, sortMembers (entity [member "a" "b", member "b" "c"]) "set" = .ok order ↔
      sortMembers (entity [member "b" "c", member "a" "b"]) "set" = .ok order := by
  intro member entity
  exact (@sortMembers_declared _ (entity [member "a" "b", member "b" "c"]) (.swap ..) "set").1

end CambrianLang.Analysis
