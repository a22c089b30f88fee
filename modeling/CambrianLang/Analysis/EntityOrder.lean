/-
  **The order of the entities of a program** (`entity_sccs`, `analysis/graphs.rs`).

  The entities with routes are grouped by the typed sends between them, and the groups are
  put in an order that should name an entity after those it sends to.  The components come
  that way from Tarjan's algorithm and are then reversed.  The sends are collected by a
  walk that does not go into the phases of a mixed body.
-/
import CambrianLang.Analysis.SendTarget
import CambrianLang.Lib.TarjanComponents

namespace CambrianLang.Analysis

open Ast Traversal Tarjan Relation

/-! ### Sends -/

/-- The actions that `for_each_route_action` starts from. -/
def visitedActions : RouteBody → List RouteAction
  | .unphased actions | .mixed _ actions => actions
  | .phased phases => phases.flatMap PhaseBlock.actions

/-- `for_each_action`. -/
def forEachAction : Walker RouteAction RouteAction where
  own a := [a]
  visited := RouteAction.children
  rank := RouteAction.rank
  rank_lt := rank_nested_lt

/-- `for_each_route_action`. -/
def forEachRouteAction (body : RouteBody) : List RouteAction :=
  (visitedActions body).flatMap forEachAction.walk

/-- `cross_entity_target`. -/
def crossEntityTarget (action : RouteAction) (selfEntity : Entity) (route : Route)
    (program : Program) : Option String :=
  match action with
  | .send _ _ dest _ | .varCall _ _ _ dest _ =>
      match classifyDest dest selfEntity route program with
      | .crossEntity entity _ | .dynamicTyped entity _ => some entity
      | _ => none
  | _ => none

/-- A `BTreeSet`, in order. -/
def sortedSet (xs : List String) : List String := xs.dedup.insertionSort (· ≤ ·)

/-- `cross_entity_route_dependencies`. -/
def crossEntityRouteDependencies (program : Program) (entity : Entity) : List String :=
  sortedSet (entity.routes.flatMap fun route =>
    (forEachRouteAction route.body).filterMap (crossEntityTarget · entity route program))

/-- `entity_send_deps`; a later entity of the same name is listed first. -/
def entitySendDeps (program : Program) : Deps String :=
  (program.entities.map fun e =>
    (e.name, (crossEntityRouteDependencies program e).filter (· != e.name))).reverse

/-- `ProgramGraphs::send_deps`. -/
def sendDeps (program : Program) (name : String) : List String :=
  ((entitySendDeps program).lookup name).getD []

/-! ### Components -/

structure TarjanOptions where
  reverseCondensation : Bool
  sortSccsBySourceOrder : Bool
deriving DecidableEq

/-- `index_map`: of a name that is listed twice, the later place. -/
def indexMap (names : List String) : List (String × Nat) := names.zipIdx.reverse

/-- `source_idx`. -/
def sourceIdx (names : List String) (n : String) : Nat :=
  ((indexMap names).lookup n).getD (2 ^ 64 - 1)

/-- `tarjan_sccs`. -/
def orderedSccs (names : List String) (deps : Deps String) (opts : TarjanOptions) :
    List (List String) :=
  let sccs := tarjanSccs names deps
  let sccs :=
    if opts.sortSccsBySourceOrder then
      sccs.map (List.insertionSort fun a b => sourceIdx names a ≤ sourceIdx names b)
    else sccs
  if opts.reverseCondensation then sccs.reverse else sccs

def routedEntities (program : Program) : List Entity :=
  program.entities.filter (!·.routes.isEmpty)

/-- The names `compute_entity_sccs` works on. -/
def sccNames (program : Program) : List String := (routedEntities program).map (·.name)

/-- The map `compute_entity_sccs` works on. -/
def sccDeps (program : Program) : Deps String :=
  ((routedEntities program).map fun e =>
    (e.name, (sendDeps program e.name).filter fun d =>
      d != e.name && (sccNames program).contains d)).reverse

/-- `compute_entity_sccs`. -/
def computeEntitySccs (program : Program) : List (List String) :=
  orderedSccs (sccNames program) (sccDeps program)
    { reverseCondensation := true, sortSccsBySourceOrder := false }

/-! ### The property -/

/-- A route of `a` has a typed send to `b` among the given actions; both have routes. -/
def SendsAmong (actions : RouteBody → List RouteAction) (program : Program) (a b : String) : Prop :=
  b ∈ sccNames program ∧ ∃ e ∈ routedEntities program, e.name = a ∧ ∃ route ∈ e.routes,
    ∃ top ∈ actions route.body, ∃ action, Subaction top action ∧
      crossEntityTarget action e route program = some b

/-- A typed send. -/
def Sends : Program → String → String → Prop := SendsAmong RouteBody.allActions

/-- A typed send that is in no phase of a mixed body. -/
def PlainSends : Program → String → String → Prop := SendsAmong visitedActions

def Mutual (R : String → String → Prop) (a b : String) : Prop :=
  ReflTransGen R a b ∧ ReflTransGen R b a

/-- The groups are the strongly connected components of the sends, and an entity comes
    after those it sends to. -/
structure DependeesFirst (program : Program) (sccs : List (List String)) : Prop where
  nodup : sccs.flatten.Nodup
  covers : ∀ n, n ∈ sccs.flatten ↔ n ∈ sccNames program
  maximal : ∀ comp ∈ sccs, comp ≠ [] ∧ ∀ a ∈ comp, ∀ b, b ∈ comp ↔ Mutual (Sends program) a b
  ordered : ∀ a b, Sends program a b → ¬ Mutual (Sends program) a b →
    position sccs b < position sccs a

/-- Some entity of the first one's group is declared before all of the second one's. -/
def DeclaredBefore (program : Program) (a b : String) : Prop :=
  ∃ a', Mutual (PlainSends program) a a' ∧ ∀ b', Mutual (PlainSends program) b b' →
    (sccNames program).idxOf a' < (sccNames program).idxOf b'

/-- No send outside the phases of mixed bodies leaves its group, and one inside leads only
    to groups declared later. -/
structure SendsWithin (program : Program) : Prop where
  plain : ∀ a b, PlainSends program a b → ReflTransGen (PlainSends program) b a
  phased : ∀ a b, Sends program a b → Mutual (PlainSends program) a b ∨ DeclaredBefore program a b

/-! ### The edges that are collected -/

section Edges

variable {program : Program}

theorem mem_forEachRouteAction {body : RouteBody} {action : RouteAction} :
    action ∈ forEachRouteAction body ↔ ∃ top ∈ visitedActions body, Subaction top action := by
  rw [forEachRouteAction, List.mem_flatMap]
  apply exists_congr
  intro top
  rw [and_congr_right_iff]
  intro _
  rw [Walker.mem_walk]
  constructor
  · rintro ⟨b, hb, hmem⟩
    rw [List.mem_singleton.mp hmem]
    exact hb
  · exact fun h => ⟨action, h, List.mem_singleton.mpr rfl⟩

theorem mem_sortedSet {xs : List String} {x : String} : x ∈ sortedSet xs ↔ x ∈ xs := by
  rw [sortedSet, List.mem_insertionSort, List.mem_dedup]

theorem mem_crossEntityRouteDependencies {e : Entity} {b : String} :
    b ∈ crossEntityRouteDependencies program e ↔ ∃ route ∈ e.routes,
      ∃ top ∈ visitedActions route.body, ∃ action, Subaction top action ∧
        crossEntityTarget action e route program = some b := by
  rw [crossEntityRouteDependencies, mem_sortedSet, List.mem_flatMap]
  apply exists_congr
  intro route
  rw [and_congr_right_iff]
  intro _
  rw [List.mem_filterMap]
  constructor
  · rintro ⟨action, hmem, htarget⟩
    obtain ⟨top, htop, hsub⟩ := mem_forEachRouteAction.mp hmem
    exact ⟨top, htop, action, hsub, htarget⟩
  · rintro ⟨top, htop, action, hsub, htarget⟩
    exact ⟨action, mem_forEachRouteAction.mpr ⟨top, htop, hsub⟩, htarget⟩

/-- What is stored under a key that is there once. -/
theorem lookup_of_once {β : Type} {entries : List (String × β)} (h : (entries.map Prod.fst).Nodup)
    {b : String × β} (hb : b ∈ entries) : entries.lookup b.1 = some b.2 := by
  obtain ⟨before, after, rfl⟩ := List.append_of_mem hb
  refine List.lookup_eq_some_iff.mpr ⟨before, after, rfl, fun p hp => bne_iff_ne.mpr fun heq => ?_⟩
  rw [List.map_append, List.map_cons, List.nodup_append] at h
  exact h.2.2 p.1 (List.mem_map_of_mem hp) b.1 List.mem_cons_self heq.symm

theorem lookup_of_nodup {β : Type} {es : List Entity} (hnodup : (es.map (·.name)).Nodup)
    (f : Entity → β) {e : Entity} (he : e ∈ es) :
    (es.map fun e => (e.name, f e)).reverse.lookup e.name = some (f e) := by
  refine lookup_of_once (b := (e.name, f e)) ?_ (List.mem_reverse.mpr (List.mem_map.mpr ⟨e, he, rfl⟩))
  rw [List.map_reverse, List.nodup_reverse, List.map_map]
  exact hnodup

theorem isSome_lookup_iff {β : Type} {es : List Entity} {f : Entity → β} {n : String} :
    ((es.map fun e => (e.name, f e)).reverse.lookup n).isSome = true ↔ n ∈ es.map (·.name) := by
  rw [List.lookup_isSome_iff, List.mem_map]
  constructor
  · rintro ⟨p, hp, heq⟩
    obtain ⟨e, he, rfl⟩ := List.mem_map.mp (List.mem_reverse.mp hp)
    exact ⟨e, he, (beq_iff_eq.mp heq).symm⟩
  · rintro ⟨e, he, rfl⟩
    exact ⟨_, List.mem_reverse.mpr (List.mem_map_of_mem he), beq_self_eq_true _⟩

theorem routedEntities_sub {e : Entity} (he : e ∈ routedEntities program) : e ∈ program.entities :=
  List.mem_of_mem_filter he

variable (hnames : (program.entities.map (·.name)).Nodup)

include hnames

theorem nodup_sccNames : (sccNames program).Nodup :=
  hnames.sublist (List.filter_sublist.map _)

theorem sccDeps_lookup {e : Entity} (he : e ∈ routedEntities program) :
    (sccDeps program).lookup e.name = some ((sendDeps program e.name).filter fun d =>
      d != e.name && (sccNames program).contains d) :=
  lookup_of_nodup (nodup_sccNames hnames) _ he

theorem mem_sendDeps {e : Entity} (he : e ∈ program.entities) {b : String} :
    b ∈ sendDeps program e.name ↔ b ∈ crossEntityRouteDependencies program e ∧ b ≠ e.name := by
  rw [sendDeps, entitySendDeps, lookup_of_nodup hnames _ he, Option.getD_some, List.mem_filter,
    bne_iff_ne]

/-- The collected edges are the sends outside mixed phases, without those to oneself. -/
theorem edge_iff {a b : String} :
    Edge (sccDeps program) a b ↔ PlainSends program a b ∧ a ≠ b := by
  constructor
  · rintro ⟨hmem, -⟩
    have hsome : ((sccDeps program).lookup a).isSome = true := by
      cases hlook : (sccDeps program).lookup a with
      | none =>
        rw [hlook] at hmem
        exact absurd hmem List.not_mem_nil
      | some l => rfl
    obtain ⟨e, he, rfl⟩ := List.mem_map.mp (isSome_lookup_iff.mp hsome)
    rw [sccDeps_lookup hnames he, Option.getD_some, List.mem_filter,
      mem_sendDeps hnames (routedEntities_sub he), Bool.and_eq_true, List.contains_iff_mem] at hmem
    obtain ⟨⟨hdep, hne⟩, -, hb⟩ := hmem
    obtain ⟨route, hroute, hrest⟩ := mem_crossEntityRouteDependencies.mp hdep
    exact ⟨⟨hb, e, he, rfl, route, hroute, hrest⟩, hne.symm⟩
  · rintro ⟨⟨hb, e, he, rfl, route, hroute, hrest⟩, hne⟩
    refine ⟨?_, isSome_lookup_iff.mpr hb⟩
    rw [sccDeps_lookup hnames he, Option.getD_some, List.mem_filter,
      mem_sendDeps hnames (routedEntities_sub he), Bool.and_eq_true, List.contains_iff_mem,
      bne_iff_ne]
    exact ⟨⟨mem_crossEntityRouteDependencies.mpr ⟨route, hroute, hrest⟩, hne.symm⟩, hne.symm, hb⟩

theorem reach_iff {a b : String} :
    Reach (sccDeps program) a b ↔ ReflTransGen (PlainSends program) a b := by
  constructor
  · exact ReflTransGen.mono (fun _ _ h => ((edge_iff hnames).mp h).1) _ _
  · intro h
    induction h with
    | refl => exact .refl
    | @tail m n _ hstep ih =>
      by_cases heq : m = n
      · exact heq ▸ ih
      · exact ih.tail ((edge_iff hnames).mpr ⟨hstep, heq⟩)

end Edges

/-! ### The two directions -/

theorem PlainSends.sends {program : Program} {a b : String} (h : PlainSends program a b) :
    Sends program a b := by
  obtain ⟨hb, e, he, hname, route, hroute, top, htop, hrest⟩ := h
  refine ⟨hb, e, he, hname, route, hroute, top, ?_, hrest⟩
  unfold visitedActions at htop
  unfold RouteBody.allActions
  cases hbody : route.body with
  | unphased actions => rwa [hbody] at htop
  | phased phases => rwa [hbody] at htop
  | mixed phases actions =>
    rw [hbody] at htop
    exact List.mem_append_right _ htop

theorem Mutual.plain {program : Program} {a b : String} (h : Mutual (PlainSends program) a b) :
    Mutual (Sends program) a b :=
  ⟨ReflTransGen.mono (fun _ _ h => h.sends) _ _ h.1, ReflTransGen.mono (fun _ _ h => h.sends) _ _ h.2⟩

theorem SendsAmong.source {actions : RouteBody → List RouteAction} {program : Program}
    {a b : String} (h : SendsAmong actions program a b) : a ∈ sccNames program := by
  obtain ⟨-, e, he, rfl, -⟩ := h
  exact List.mem_map_of_mem he

/-- The components before they are reversed. -/
abbrev naturalSccs (program : Program) : List (List String) :=
  tarjanSccs (sccNames program) (sccDeps program)

theorem computeEntitySccs_eq (program : Program) :
    computeEntitySccs program = (naturalSccs program).reverse := rfl

section Order

variable {program : Program} (hnames : (program.entities.map (·.name)).Nodup)

include hnames

/-- What the components are, by the sends that are collected. -/
theorem naturalSccs_spec : (naturalSccs program).flatten.Nodup ∧
    (∀ n, n ∈ (naturalSccs program).flatten ↔ n ∈ sccNames program) ∧
    ∀ comp ∈ naturalSccs program, comp ≠ [] ∧ ∀ a ∈ comp, ∀ b,
      b ∈ comp ↔ Mutual (PlainSends program) a b := by
  obtain ⟨hnodup, hcomps, hmem⟩ := tarjanSccs_partition (sccNames program) (sccDeps program)
  refine ⟨hnodup, ?_, ?_⟩
  · intro n
    rw [hmem]
    constructor
    · rintro ⟨m, hm, hreach⟩
      rcases ReflTransGen.cases_tail hreach with rfl | ⟨k, -, hedge⟩
      · exact hm
      · exact ((edge_iff hnames).mp hedge).1.1
    · exact fun hn => ⟨n, hn, .refl⟩
  · intro comp hcomp
    refine ⟨(hcomps comp hcomp).1, ?_⟩
    intro a ha b
    rw [(hcomps comp hcomp).2 a ha b, reach_iff hnames, reach_iff hnames]
    rfl

theorem position_eq_iff {a b : String} (ha : a ∈ sccNames program) (hb : b ∈ sccNames program) :
    position (naturalSccs program) a = position (naturalSccs program) b ↔
      Mutual (PlainSends program) a b := by
  obtain ⟨hnodup, hcovers, hcomps⟩ := naturalSccs_spec hnames
  obtain ⟨hlt, hmem⟩ := mem_position hnodup ((hcovers a).mpr ha)
  obtain ⟨hlt', hmem'⟩ := mem_position hnodup ((hcovers b).mpr hb)
  rw [← (hcomps _ (List.getElem_mem hlt)).2 a hmem b]
  constructor
  · intro heq
    simpa only [heq] using hmem'
  · intro hmem
    exact (position_eq hnodup hmem).symm

/-- A collected send never leads to a later component. -/
theorem position_le_of_plain {a b : String} (h : PlainSends program a b) :
    position (naturalSccs program) b ≤ position (naturalSccs program) a := by
  by_cases heq : a = b
  · rw [heq]
  · obtain ⟨hnodup, hcovers, -⟩ := naturalSccs_spec hnames
    obtain ⟨hlt, hmem⟩ := mem_position hnodup ((hcovers a).mpr h.source)
    obtain ⟨j, hj, hle, hb⟩ := (tarjanSccs_spec (sccNames program) (sccDeps program)).1.exists_le
      ((edge_iff hnames).mpr ⟨h, heq⟩) hmem
    rw [position_eq hnodup hb]
    exact hle

theorem position_reverse_lt {a b : String} (ha : a ∈ sccNames program) (hb : b ∈ sccNames program) :
    position (computeEntitySccs program) b < position (computeEntitySccs program) a ↔
      position (naturalSccs program) a < position (naturalSccs program) b := by
  obtain ⟨hnodup, hcovers, -⟩ := naturalSccs_spec hnames
  obtain ⟨hlt, -⟩ := mem_position hnodup ((hcovers a).mpr ha)
  obtain ⟨hlt', -⟩ := mem_position hnodup ((hcovers b).mpr hb)
  rw [computeEntitySccs_eq, position_reverse hnodup ((hcovers a).mpr ha),
    position_reverse hnodup ((hcovers b).mpr hb)]
  omega

/-- Where no collected send leaves its group, the groups come in the order of their first
    entities. -/
theorem position_lt_iff (hplain : ∀ a b, PlainSends program a b → ReflTransGen (PlainSends program) b a)
    {a b : String} (ha : a ∈ sccNames program) (hb : b ∈ sccNames program) :
    position (naturalSccs program) a < position (naturalSccs program) b ↔
      DeclaredBefore program a b := by
  obtain ⟨hnodup, hcovers, hcomps⟩ := naturalSccs_spec hnames
  have hback : ∀ x y, Edge (sccDeps program) x y → Reach (sccDeps program) y x :=
    fun x y h => (reach_iff hnames).mpr (hplain x y ((edge_iff hnames).mp h).1)
  have hbefore : ∀ {x y}, x ∈ sccNames program → y ∈ sccNames program →
      position (naturalSccs program) x < position (naturalSccs program) y →
      DeclaredBefore program x y := by
    intro x y hx hy hlt
    obtain ⟨hltx, hmemx⟩ := mem_position hnodup ((hcovers x).mpr hx)
    obtain ⟨hlty, hmemy⟩ := mem_position hnodup ((hcovers y).mpr hy)
    obtain ⟨x', hx', hfirst⟩ := List.pairwise_iff_getElem.mp (tarjanSccs_ordered hback) _ _ hltx
      hlty hlt
    refine ⟨x', ((hcomps _ (List.getElem_mem hltx)).2 x hmemx x').mp hx', ?_⟩
    intro y' hy'
    exact hfirst y' (((hcomps _ (List.getElem_mem hlty)).2 y hmemy y').mpr hy')
  refine ⟨hbefore ha hb, ?_⟩
  rintro ⟨a', haa', hfirst⟩
  rcases Nat.lt_trichotomy (position (naturalSccs program) a) (position (naturalSccs program) b) with
    hlt | heq | hgt
  · exact hlt
  · have hmutual := (position_eq_iff hnames ha hb).mp heq
    have hself := hfirst a' ⟨hmutual.2.trans haa'.1, haa'.2.trans hmutual.1⟩
    omega
  · obtain ⟨b', hbb', hfirst'⟩ := hbefore hb ha hgt
    have hab := hfirst b' hbb'
    have hba := hfirst' a' haa'
    omega

/-- **The order is dependees first exactly where it has nothing to order**, or the sends
    between groups are in phases of mixed bodies and go to groups declared later. -/
theorem dependeesFirst_iff :
    DependeesFirst program (computeEntitySccs program) ↔ SendsWithin program := by
  obtain ⟨hnodup, hcovers, hcomps⟩ := naturalSccs_spec hnames
  constructor
  · intro h
    have hsame : ∀ a ∈ sccNames program, ∀ b, Mutual (Sends program) a b →
        Mutual (PlainSends program) a b := by
      intro a ha b hab
      obtain ⟨hlt, hmem⟩ := mem_position hnodup ((hcovers a).mpr ha)
      have hin : (naturalSccs program)[position (naturalSccs program) a] ∈ computeEntitySccs program :=
        List.mem_reverse.mpr (List.getElem_mem hlt)
      exact ((hcomps _ (List.getElem_mem hlt)).2 a hmem b).mp (((h.maximal _ hin).2 a hmem b).mpr hab)
    have hplain : ∀ a b, PlainSends program a b → ReflTransGen (PlainSends program) b a := by
      intro a b hab
      by_contra hnot
      have hcross : ¬ Mutual (Sends program) a b := fun hm => hnot (hsame a hab.source b hm).2
      have hlt := (position_reverse_lt hnames hab.source hab.1).mp (h.ordered a b hab.sends hcross)
      have hle := position_le_of_plain hnames hab
      omega
    refine ⟨hplain, ?_⟩
    intro a b hab
    by_cases hm : Mutual (Sends program) a b
    · exact .inl (hsame a hab.source b hm)
    · exact .inr ((position_lt_iff hnames hplain hab.source hab.1).mp
        ((position_reverse_lt hnames hab.source hab.1).mp (h.ordered a b hab hm)))
  · intro h
    have hstep : ∀ a b, Sends program a b →
        position (naturalSccs program) a ≤ position (naturalSccs program) b := by
      intro a b hab
      rcases h.phased a b hab with hm | hbefore
      · exact Nat.le_of_eq ((position_eq_iff hnames hab.source hab.1).mpr hm)
      · exact Nat.le_of_lt ((position_lt_iff hnames h.plain hab.source hab.1).mpr hbefore)
    -- along sends the position never falls, so on a cycle it stays
    have hpath : ∀ a b, ReflTransGen (Sends program) a b → a ∈ sccNames program →
        b ∈ sccNames program ∧ position (naturalSccs program) a ≤ position (naturalSccs program) b := by
      intro a b hab ha
      induction hab with
      | refl => exact ⟨ha, Nat.le_refl _⟩
      | tail _ hlast ih => exact ⟨hlast.1, ih.2.trans (hstep _ _ hlast)⟩
    have hsame : ∀ a ∈ sccNames program, ∀ b, Mutual (Sends program) a b →
        Mutual (PlainSends program) a b := by
      intro a ha b hab
      obtain ⟨hb, hle⟩ := hpath a b hab.1 ha
      have hge := (hpath b a hab.2 hb).2
      exact (position_eq_iff hnames ha hb).mp (Nat.le_antisymm hle hge)
    have hperm : (computeEntitySccs program).flatten.Perm (naturalSccs program).flatten :=
      List.Perm.flatten (List.reverse_perm _)
    refine ⟨hperm.nodup_iff.mpr hnodup, fun n => hperm.mem_iff.trans (hcovers n), ?_, ?_⟩
    · intro comp hcomp
      have hin : comp ∈ naturalSccs program := List.mem_reverse.mp hcomp
      refine ⟨(hcomps comp hin).1, ?_⟩
      intro a ha b
      rw [(hcomps comp hin).2 a ha b]
      refine ⟨Mutual.plain, hsame a ?_ b⟩
      exact (hcovers a).mp (List.mem_flatten.mpr ⟨comp, hin, ha⟩)
    · intro a b hab hcross
      rw [position_reverse_lt hnames hab.source hab.1, position_lt_iff hnames h.plain hab.source hab.1]
      exact (h.phased a b hab).resolve_left fun hm => hcross hm.plain

end Order

/-! ### One send, and two that answer each other -/

/-- `hail() ~> name.address`. -/
def hail (name : String) : RouteAction :=
  .send (some "hail") [] (.fieldAccess (.ident name) "address") none

def hailing (name : String) (actions : List RouteAction) : Entity where
  name := name
  records := []
  enums := []
  typeAliases := []
  constants := []
  macros := []
  routes := [
    { name := "hail", params := [], fromClauses := [], whereClauses := [], returnType := none
      body := .unphased actions, isView := false, isPure := false, isInit := false, isAccept := false
      isPrivate := false, recoverTag := none, factoryOnly := false }]
  members := []

/-- `A` sends to `B`; `B` does what is given. -/
def hailProgram (actions : List RouteAction) : Program where
  imports := []
  pureFns := []
  typeAliases := []
  records := []
  enums := []
  entities := [hailing "A" [hail "B"], hailing "B" actions]
  externEntities := []
  libraries := []

theorem sends_hail (actions : List RouteAction) : PlainSends (hailProgram actions) "A" "B" :=
  ⟨List.mem_cons_of_mem _ List.mem_cons_self, _, List.mem_cons_self, rfl, _, List.mem_cons_self,
    _, List.mem_cons_self, _, .refl, rfl⟩

theorem dependents_first :
    computeEntitySccs (hailProgram []) = [["A"], ["B"]] ∧
      ¬ DependeesFirst (hailProgram []) (computeEntitySccs (hailProgram [])) := by
  have hsccs : computeEntitySccs (hailProgram []) = [["A"], ["B"]] := by decide
  refine ⟨hsccs, ?_⟩
  rw [hsccs]
  intro h
  have hcross : ¬ Mutual (Sends (hailProgram [])) "A" "B" := by
    intro hm
    have hin := ((h.maximal ["A"] List.mem_cons_self).2 "A" List.mem_cons_self "B").mpr hm
    exact absurd hin (by decide)
  exact absurd (h.ordered "A" "B" (sends_hail []).sends hcross) (by decide)

/-- Every send of the program is between `A` and `B`, which reach each other. -/
theorem answered_mutual {a b : String} (h : Sends (hailProgram [hail "A"]) a b) :
    Mutual (PlainSends (hailProgram [hail "A"])) a b := by
  have hAB := sends_hail [hail "A"]
  have hBA : PlainSends (hailProgram [hail "A"]) "B" "A" :=
    ⟨List.mem_cons_self, _, List.mem_cons_of_mem _ List.mem_cons_self, rfl, _, List.mem_cons_self,
      _, List.mem_cons_self, _, .refl, rfl⟩
  have hnames : sccNames (hailProgram [hail "A"]) = ["A", "B"] := by decide
  have ha := h.source
  have hb := h.1
  rw [hnames, List.mem_pair] at ha hb
  rcases ha with rfl | rfl <;> rcases hb with rfl | rfl
  · exact ⟨.refl, .refl⟩
  · exact ⟨.single hAB, .single hBA⟩
  · exact ⟨.single hBA, .single hAB⟩
  · exact ⟨.refl, .refl⟩

theorem dependeesFirst_answered :
    DependeesFirst (hailProgram [hail "A"]) (computeEntitySccs (hailProgram [hail "A"])) := by
  have hnames : ((hailProgram [hail "A"]).entities.map (·.name)).Nodup := by decide
  rw [dependeesFirst_iff hnames]
  exact ⟨fun _ _ h => (answered_mutual h.sends).2, fun _ _ h => .inl (answered_mutual h)⟩

end CambrianLang.Analysis
