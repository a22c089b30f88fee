/-
  **Deploying the instances of a multi-entity invariant**
  (`codegen/evm_test_codegen.rs`, `codegen/lean/evm/invariant.rs`).

  `setUp` deploys the instances in a topological order of their pins and typed
  constructor parameters.  An argument that names another instance is the variable
  of that instance once it is deployed; before that it is the address predicted from
  its identity arguments, which are printed in the same way.  The statement of the
  theorem binds the identities in an order of its own.
-/
import CambrianLang.Ast.Authored
import CambrianLang.Layout.Storage
import CambrianLang.Lib.MapM
import CambrianLang.Lib.TopoSort

namespace CambrianLang.Invariants

open Ast TopoSort MapM Traversal
open Authored (ForallSpec)
open Layout (isMappingType findInitRoute)

/-! ### Instances and pins -/

/-- An instance with its entity: a row of `entity_for_inst` and of the parallel `inits`. -/
structure Deployable where
  name : String
  entity : Entity
  init : List (String × Expr)
  forallState : ForallSpec

/-- The instances whose entity is declared. -/
def deployables (entities : List Entity) (inv : Authored.InvariantDecl) : List Deployable :=
  inv.instances.filterMap fun inst =>
    (entities.find? (·.name == inst.entity)).map fun entity =>
      { name := inst.name, entity := entity, init := inst.init, forallState := inst.forallState }

/-- The name that a pin consists of. -/
def pinnedName : Expr → Option String
  | .ident n => some n
  | _ => none

def findPin (init : List (String × Expr)) (name : String) : Option Expr :=
  (init.find? (·.1 == name)).map Prod.snd

/-- `typed_address_entity`. -/
def typedAddressEntity : Ty → Option String
  | .typedAddress name => some name
  | .generic name [.simple entity] => if name = "Address" then some entity else none
  | _ => none

section Instances

variable (insts : List Deployable)

def namePosition (name : String) : Option ℕ := insts.findIdx? (·.name == name)

def entityPosition (name : String) : Option ℕ := insts.findIdx? (·.entity.name == name)

/-- The typed constructor parameters of an instance. -/
def typedParams (inst : Deployable) : List String :=
  match findInitRoute inst.entity with
  | some route => route.params.filterMap fun p => typedAddressEntity p.ty
  | none => []

/-- The instances that are deployed before another one. -/
def deployDeps (i : ℕ) : List ℕ :=
  match insts[i]? with
  | some inst =>
      ((inst.init.filterMap fun p => (pinnedName p.2).bind (namePosition insts)) ++
        (typedParams inst).filterMap (entityPosition insts)).filter (· ≠ i)
  | none => []

/-- `InstanceDeployOrderReport`. -/
structure InstanceDeployOrderReport where
  order : List ℕ
  topological : Bool

/-- `instance_deploy_order_report`. -/
def instanceDeployOrderReport : InstanceDeployOrderReport :=
  match topologicalSort id (List.range insts.length) (deployDeps insts) with
  | .ok order => { order := order, topological := true }
  | .error _ => { order := List.range insts.length, topological := false }

/-- The instances in the order of their deployment. -/
def deploySequence : List Deployable :=
  (instanceDeployOrderReport insts).order.filterMap (insts[·]?)

end Instances

/-- What the validator asks of an invariant with several instances: their names are distinct, their
entities are declared, and the deployment order is topological. -/
structure Accepted (entities : List Entity) (inv : Authored.InvariantDecl) : Prop where
  multi : inv.isSingleEntity = false
  names : (inv.instances.map (·.name)).Nodup
  declared : ∀ inst ∈ inv.instances, ∃ e ∈ entities, e.name = inst.entity
  order : 2 ≤ (deployables entities inv).length →
    (instanceDeployOrderReport (deployables entities inv)).topological = true

/-! ### Deployment arguments -/

/-- An argument that names no instance. -/
inductive PlainArg where
  | expr (e : Expr) (ty : Ty)
  | handler
  | default (ty : Ty)

/-- What an argument stands for: an instance, or something else. -/
inductive ArgSource where
  | sibling (inst : String)
  | plain (arg : PlainArg)

/-- `pattern_ident`. -/
def patternIdent : Pattern → Option String
  | .ident s => some s
  | .deref inner => patternIdent inner
  | _ => none

/-- The subexpressions that `expr_mentions_ident` goes into. -/
def visitedForMention : Expr → List Expr
  | .binOp l _ r => [l, r]
  | .index l r => [l, r]
  | .range l r => [l, r]
  | .letE _ l r => [l, r]
  | .unaryOp _ e => [e]
  | .someE e => [e]
  | .cast e _ => [e]
  | .fieldAccess e _ => [e]
  | .closure _ e => [e]
  | .methodCall recv _ args => recv :: args
  | .fnCall _ args => args
  | .namespacedCall _ _ args _ => args
  | .ifE c t e => c :: t :: e.toList
  | .block items => items
  | _ => []

theorem visitedForMention_sub {e c : Expr} (h : c ∈ visitedForMention e) : c ∈ e.children := by
  unfold visitedForMention at h
  split at h
  all_goals first
    | exact absurd h List.not_mem_nil
    | simpa [Expr.children, Expr.parts, unbound, Function.comp_def] using h

def mentionWalker : Walker Expr Expr where
  own e := [e]
  visited := visitedForMention
  rank := Expr.rank
  rank_lt h := rank_child_lt (visitedForMention_sub h)

/-- `expr_mentions_ident`. -/
def exprMentionsIdent (e : Expr) (name : String) : Bool :=
  (mentionWalker.walk e).any fun
    | .ident s => s == name
    | _ => false

/-- `transform_maps_ctor_param_to_init_pin`. -/
def transformMapsCtorParamToInitPin (t : MemberTransform) (paramIdx : ℕ) : Bool :=
  match (t.params[paramIdx]?).bind patternIdent with
  | some paramName => exprMentionsIdent t.body paramName
  | none => false

/-- `param_is_address`. -/
def paramIsAddress (ty : Ty) : Bool :=
  (match ty with
    | .simple s => s == "address"
    | _ => false) || (typedAddressEntity ty).isSome

/-- `init_route_is_unary_address`. -/
def initRouteIsUnaryAddress (entity : Entity) : Bool :=
  match (findInitRoute entity).map (·.params) with
  | some [p] => paramIsAddress p.ty
  | _ => false

section Args

variable (insts : List Deployable) (deploy senders : List Expr) (inst : Deployable)

def siblingNamed (name : String) : Option String :=
  (insts.find? (·.name == name)).map (·.name)

/-- `sibling_for_typed_address`. -/
def siblingForTypedAddress (ty : Ty) : Option String :=
  (typedAddressEntity ty).bind fun ename =>
    (insts.find? (·.entity.name == ename)).map (·.name)

/-- `unmatched_address_arg` in an invariant. -/
def unmatchedAddressArg (ty : Ty) : PlainArg :=
  match initRouteIsUnaryAddress inst.entity, deploy.head?.or senders.head? with
  | true, some s => .expr s ty
  | _, _ => .handler

/-- The pin of a member that the init route sets from its parameter. -/
def pinFromTransforms (routeName : String) (i : ℕ) : Option Expr :=
  inst.entity.members.findSome? fun m =>
    if isMappingType m.ty then none
    else m.transforms.findSome? fun t =>
      if t.routeName = routeName ∧ transformMapsCtorParamToInitPin t i = true then
        findPin inst.init m.name
      else none

/-- The pin of the identity member that the parameter is named after. -/
def pinFromIdentity (param : String) : Option Expr :=
  (inst.entity.members.find? fun m => m.isIdentity && m.name == param).bind fun m =>
    findPin inst.init m.name

/-- What a pin stands for. -/
def pinSource (e : Expr) (ty : Ty) : ArgSource :=
  match (pinnedName e).bind (siblingNamed insts) with
  | some sibling => .sibling sibling
  | none => .plain (.expr e ty)

/-- One parameter in `resolve_init_route_args`. -/
def initRouteArg (routeName : String) (i : ℕ) (p : Param) : ArgSource :=
  match (pinFromTransforms inst routeName i).or (pinFromIdentity inst p.name) with
  | some e => pinSource insts e p.ty
  | none =>
      match siblingForTypedAddress insts p.ty with
      | some sibling => .sibling sibling
      | none =>
          if paramIsAddress p.ty then .plain (unmatchedAddressArg deploy senders inst p.ty)
          else .plain (.default p.ty)

/-- `resolve_init_route_args`. -/
def initRouteArgs : List ArgSource :=
  match findInitRoute inst.entity with
  | some route => route.params.mapIdx fun i p => initRouteArg insts deploy senders inst route.name i p
  | none => []

/-- The arguments of `identity_ctor_args_sol`. -/
def identityCtorArgs : List ArgSource :=
  (inst.entity.members.filter (·.isIdentity)).map fun m =>
    match findPin inst.init m.name with
    | some e => pinSource insts e m.ty
    | none => .plain (.default m.ty)

end Args

/-! ### Rendering -/

/-- A rendered argument.  The text of a prediction has the entity and its identity arguments; the
instance it stands for is kept beside them. -/
inductive DeployArg where
  | plain (arg : PlainArg)
  | deployed (inst : String)
  | predicted (inst entity : String) (args : List DeployArg)

section Render

variable (insts : List Deployable) (deploy senders : List Expr)

/-- `sibling_instance_ref_sol` with the calls it makes of itself through `identity_ctor_args_sol`.
No fuel is left for a call that does not come back. -/
def renderArg (deployed : List String) : ℕ → ArgSource → Option DeployArg
  | _, .plain arg => some (.plain arg)
  | 0, .sibling name => if name ∈ deployed then some (.deployed name) else none
  | fuel + 1, .sibling name =>
      if name ∈ deployed then some (.deployed name)
      else (insts.find? (·.name == name)).bind fun inst =>
        ((identityCtorArgs insts inst).mapM (renderArg deployed fuel)).map
          (.predicted name inst.entity.name)

/-- `_inst = factory.deployEntity(identity.., route..)`. -/
structure DeployStmt where
  inst : String
  entity : String
  identity : List DeployArg
  route : List DeployArg

/-- One round of the deployment loop of `gen_invariant_multi_file`. -/
def genDeploy (deployed : List String) (fuel : ℕ) (inst : Deployable) : Option DeployStmt :=
  ((identityCtorArgs insts inst).mapM (renderArg insts deployed fuel)).bind fun identity =>
    ((initRouteArgs insts deploy senders inst).mapM (renderArg insts deployed fuel)).map
      ({ inst := inst.name, entity := inst.entity.name, identity := identity, route := · })

/-- The deployment loop. -/
def genDeploys (fuel : ℕ) : List String → List Deployable → Option (List DeployStmt)
  | _, [] => some []
  | deployed, inst :: rest =>
      (genDeploy insts deploy senders deployed fuel inst).bind fun s =>
        (genDeploys fuel (deployed ++ [inst.name]) rest).map (s :: ·)

end Render

/-! ### Running the deployments -/

/-- What the chain and the values of other arguments are: an address follows from the entity and the
identity arguments. -/
structure Chain (V : Type) where
  create2 : String → List V → V
  plain : PlainArg → V

section Run

variable {V : Type} (c : Chain V) (env : String → Option V)

mutual
/-- The value of an argument, given the addresses of the instances that are deployed. -/
def DeployArg.eval : DeployArg → Option V
  | .plain arg => some (c.plain arg)
  | .deployed inst => env inst
  | .predicted _ entity args => (evalAll args).map (c.create2 entity)
def evalAll : List DeployArg → Option (List V)
  | [] => some []
  | a :: as => (DeployArg.eval a).bind fun v => (evalAll as).map (v :: ·)
end

variable (final : String → Option V)

mutual
/-- Every reference in an argument is the address its instance is deployed at in the end. -/
def DeployArg.Denotes : DeployArg → Prop
  | .plain _ => True
  | .deployed inst => ∃ a, env inst = some a ∧ final inst = some a
  | .predicted inst entity args =>
      (∃ a, DeployArg.eval c env (.predicted inst entity args) = some a ∧ final inst = some a) ∧
        AllDenote args
def AllDenote : List DeployArg → Prop
  | [] => True
  | a :: as => DeployArg.Denotes a ∧ AllDenote as
end

/-- The deployments one after the other. -/
def runDeploys : (String → Option V) → List DeployStmt → Option (String → Option V)
  | env, [] => some env
  | env, s :: rest =>
      (evalAll c env s.identity).bind fun ids =>
        (evalAll c env s.route).bind fun _ =>
          runDeploys (Function.update env s.inst (some (c.create2 s.entity ids))) rest

end Run

/-- `setUp` is generated, deploys every instance once and behind the other instances its arguments
name, and every reference in the arguments is the address of the instance it stands for. -/
def DeploysSoundly (insts : List Deployable) (deploy senders : List Expr) : Prop :=
  ∃ fuel stmts, genDeploys insts deploy senders fuel [] (deploySequence insts) = some stmts ∧
    (stmts.map (·.inst)).Perm (insts.map (·.name)) ∧
    (∀ pre inst post, deploySequence insts = pre ++ inst :: post → ∀ sibling,
      ArgSource.sibling sibling ∈ identityCtorArgs insts inst ++ initRouteArgs insts deploy senders inst →
      sibling ≠ inst.name → sibling ∈ pre.map (·.name)) ∧
    ∀ (V : Type) (c : Chain V), ∃ final, runDeploys c (fun _ => none) stmts = some final ∧
      ∀ pre s post, stmts = pre ++ s :: post →
        ∃ env, runDeploys c (fun _ => none) pre = some env ∧
          AllDenote c env final (s.identity ++ s.route)

/-- No identity member of an instance is pinned to the instance itself. -/
def NoSelfIdentity (insts : List Deployable) : Prop :=
  ∀ inst ∈ insts, ∀ m ∈ inst.entity.members, m.isIdentity = true →
    findPin inst.init m.name ≠ some (.ident inst.name)

/-! ### The order -/

section Order

variable {insts : List Deployable}

theorem namePosition_spec {name : String} {j : ℕ} (h : namePosition insts name = some j) :
    ∃ inst, insts[j]? = some inst ∧ inst.name = name := by
  obtain ⟨hlt, hname, -⟩ := List.findIdx?_eq_some_iff_getElem.mp h
  exact ⟨insts[j], List.getElem?_eq_getElem hlt, beq_iff_eq.mp hname⟩

theorem getElem_of_siblingNamed {name sibling : String} (h : siblingNamed insts name = some sibling) :
    sibling = name ∧ ∃ j, namePosition insts name = some j := by
  obtain ⟨inst, hfind, rfl⟩ := Option.map_eq_some_iff.mp h
  obtain ⟨hname, pre, post, rfl, hpre⟩ := List.find?_eq_some_iff_append.mp hfind
  refine ⟨beq_iff_eq.mp hname, ?_⟩
  rw [namePosition]
  cases hidx : (pre ++ inst :: post).findIdx? (·.name == name) with
  | some j => exact ⟨j, rfl⟩
  | none =>
    rw [List.findIdx?_eq_none_iff] at hidx
    have hmiss := hidx inst (List.mem_append_right pre List.mem_cons_self)
    rw [hname] at hmiss
    cases hmiss

theorem entityPosition_of_sibling {ename sibling : String}
    (h : (insts.find? (·.entity.name == ename)).map (·.name) = some sibling) :
    ∃ j inst, entityPosition insts ename = some j ∧ insts[j]? = some inst ∧ inst.name = sibling := by
  obtain ⟨inst, hfind, rfl⟩ := Option.map_eq_some_iff.mp h
  obtain ⟨hname, j, hlt, hget, hbefore⟩ := List.find?_eq_some_iff_getElem.mp hfind
  refine ⟨j, inst, ?_, ?_, rfl⟩
  · rw [entityPosition, List.findIdx?_eq_some_iff_getElem]
    refine ⟨hlt, hget ▸ hname, fun k hk => ?_⟩
    rw [Bool.not_eq_true, ← Bool.not_eq_true']
    exact hbefore k hk
  · rw [List.getElem?_eq_getElem hlt, hget]

theorem deployDeps_lt {i d : ℕ} (h : d ∈ deployDeps insts i) : d < insts.length := by
  rw [deployDeps] at h
  split at h
  · obtain ⟨hmem, -⟩ := List.mem_filter.mp h
    rcases List.mem_append.mp hmem with hpin | hparam
    · obtain ⟨p, -, hp⟩ := List.mem_filterMap.mp hpin
      obtain ⟨n, -, hn⟩ := Option.bind_eq_some_iff.mp hp
      exact (List.findIdx?_eq_some_iff_getElem.mp hn).1
    · obtain ⟨n, -, hn⟩ := List.mem_filterMap.mp hparam
      exact (List.findIdx?_eq_some_iff_getElem.mp hn).1
  · cases h

/-- Fewer than two instances are always in order. -/
theorem topological_of_lt_two (h : insts.length < 2) :
    (instanceDeployOrderReport insts).topological = true := by
  have hdeps : ∀ i < insts.length, deployDeps insts i = [] := by
    intro i hi
    rw [List.eq_nil_iff_forall_not_mem]
    intro d hd
    have hlt := deployDeps_lt hd
    rw [deployDeps] at hd
    split at hd
    · obtain ⟨-, hne⟩ := List.mem_filter.mp hd
      have hdi : d ≠ i := of_decide_eq_true hne
      omega
    · cases hd
  match insts, h, hdeps with
  | [], _, _ => rfl
  | [inst], _, hdeps =>
    have hnone := hdeps 0 Nat.one_pos
    have hsort : topologicalSort id (List.range 1) (deployDeps [inst]) = .ok [0] := by
      simp [topologicalSort, initial, run, adj, hnone]
    rw [instanceDeployOrderReport, List.length_singleton, hsort]

theorem topologicalSort_of_report (h : (instanceDeployOrderReport insts).topological = true) :
    topologicalSort id (List.range insts.length) (deployDeps insts) =
      .ok (instanceDeployOrderReport insts).order := by
  rw [instanceDeployOrderReport] at h ⊢
  cases hsort : topologicalSort id (List.range insts.length) (deployDeps insts) with
  | ok order => rfl
  | error left =>
    rw [hsort] at h
    cases h

end Order

/-! ### What an argument names -/

section Named

variable {insts : List Deployable} {deploy senders : List Expr} {inst : Deployable}

theorem mem_of_findPin {init : List (String × Expr)} {name : String} {e : Expr}
    (h : findPin init name = some e) : ∃ p ∈ init, p.2 = e := by
  obtain ⟨p, hp, rfl⟩ := Option.map_eq_some_iff.mp h
  exact ⟨p, List.mem_of_find?_eq_some hp, rfl⟩

theorem pinSource_sibling {e : Expr} {ty : Ty} {sibling : String} :
    pinSource insts e ty = .sibling sibling ↔
      e = .ident sibling ∧ siblingNamed insts sibling = some sibling := by
  rw [pinSource]
  constructor
  · intro h
    split at h
    · rename_i found hfound
      cases h
      obtain ⟨n, hn, hsibling⟩ := Option.bind_eq_some_iff.mp hfound
      obtain ⟨rfl, -⟩ := getElem_of_siblingNamed hsibling
      refine ⟨?_, hsibling⟩
      cases e with
      | ident s =>
        cases hn
        rfl
      | _ => cases hn
    · cases h
  · rintro ⟨rfl, hsibling⟩
    simp only [pinnedName, Option.bind_some, hsibling]

theorem mem_identityCtorArgs {sibling : String} :
    ArgSource.sibling sibling ∈ identityCtorArgs insts inst ↔
      ∃ m ∈ inst.entity.members, m.isIdentity = true ∧
        findPin inst.init m.name = some (.ident sibling) ∧
        siblingNamed insts sibling = some sibling := by
  rw [identityCtorArgs, List.mem_map]
  constructor
  · rintro ⟨m, hm, hsource⟩
    obtain ⟨hmem, hid⟩ := List.mem_filter.mp hm
    split at hsource
    · rename_i e hpin
      obtain ⟨rfl, hsibling⟩ := pinSource_sibling.mp hsource
      exact ⟨m, hmem, hid, hpin, hsibling⟩
    · cases hsource
  · rintro ⟨m, hm, hid, hpin, hsibling⟩
    refine ⟨m, List.mem_filter.mpr ⟨hm, hid⟩, ?_⟩
    rw [hpin]
    exact pinSource_sibling.mpr ⟨rfl, hsibling⟩

theorem mem_initRouteArgs {sibling : String}
    (h : ArgSource.sibling sibling ∈ initRouteArgs insts deploy senders inst) :
    (∃ p ∈ inst.init, p.2 = .ident sibling ∧ siblingNamed insts sibling = some sibling) ∨
      ∃ ename ∈ typedParams inst,
        (insts.find? (·.entity.name == ename)).map (·.name) = some sibling := by
  rw [initRouteArgs] at h
  rw [typedParams]
  cases hroute : findInitRoute inst.entity with
  | none =>
    rw [hroute] at h
    cases h
  | some route =>
    rw [hroute] at h
    obtain ⟨i, hi, hsource⟩ := List.mem_mapIdx.mp h
    rw [initRouteArg] at hsource
    split at hsource
    · rename_i e hpin
      obtain ⟨rfl, hsibling⟩ := pinSource_sibling.mp hsource
      refine Or.inl ?_
      rcases Option.or_eq_some_iff.mp hpin with hpin | ⟨-, hpin⟩
      · obtain ⟨m, -, hm⟩ := List.exists_of_findSome?_eq_some hpin
        split_ifs at hm
        obtain ⟨t, -, ht⟩ := List.exists_of_findSome?_eq_some hm
        split_ifs at ht
        obtain ⟨p, hp, heq⟩ := mem_of_findPin ht
        exact ⟨p, hp, heq, hsibling⟩
      · obtain ⟨m, -, hm⟩ := Option.bind_eq_some_iff.mp hpin
        obtain ⟨p, hp, heq⟩ := mem_of_findPin hm
        exact ⟨p, hp, heq, hsibling⟩
    · split at hsource
      · rename_i found hfound
        cases hsource
        obtain ⟨ename, hty, hsibling⟩ := Option.bind_eq_some_iff.mp hfound
        exact Or.inr ⟨ename, List.mem_filterMap.mpr ⟨_, List.getElem_mem hi, hty⟩, hsibling⟩
      · split_ifs at hsource

/-- An instance that an argument names is a dependency, unless it is the instance itself. -/
theorem dep_of_sibling {i : ℕ} (hi : insts[i]? = some inst) {sibling : String}
    (h : ArgSource.sibling sibling ∈
      identityCtorArgs insts inst ++ initRouteArgs insts deploy senders inst)
    (hne : sibling ≠ inst.name) :
    ∃ d ∈ deployDeps insts i, ∃ other, insts[d]? = some other ∧ other.name = sibling := by
  have hother : ∀ {d : ℕ} {other : Deployable}, insts[d]? = some other → other.name = sibling →
      d ≠ i := by
    rintro d other hd rfl rfl
    rw [hi] at hd
    cases hd
    exact hne rfl
  have hpinned : (∃ p ∈ inst.init, p.2 = .ident sibling ∧ siblingNamed insts sibling = some sibling) →
      ∃ d ∈ deployDeps insts i, ∃ other, insts[d]? = some other ∧ other.name = sibling := by
    rintro ⟨p, hp, hname, hsibling⟩
    obtain ⟨-, d, hd⟩ := getElem_of_siblingNamed hsibling
    obtain ⟨other, hget, hother'⟩ := namePosition_spec hd
    refine ⟨d, ?_, other, hget, hother'⟩
    simp only [deployDeps, hi]
    refine List.mem_filter.mpr ⟨List.mem_append_left _ (List.mem_filterMap.mpr ⟨p, hp, ?_⟩),
      decide_eq_true (hother hget hother')⟩
    rw [hname]
    exact hd
  rcases List.mem_append.mp h with hid | hroute
  · obtain ⟨m, -, -, hpin, hsibling⟩ := mem_identityCtorArgs.mp hid
    obtain ⟨p, hp, heq⟩ := mem_of_findPin hpin
    exact hpinned ⟨p, hp, heq, hsibling⟩
  · rcases mem_initRouteArgs hroute with hpin | ⟨ename, hename, hsibling⟩
    · exact hpinned hpin
    · obtain ⟨d, other, hd, hget, hother'⟩ := entityPosition_of_sibling hsibling
      refine ⟨d, ?_, other, hget, hother'⟩
      simp only [deployDeps, hi]
      exact List.mem_filter.mpr ⟨List.mem_append_right _ (List.mem_filterMap.mpr ⟨ename, hename, hd⟩),
        decide_eq_true (hother hget hother')⟩

end Named

/-! ### The sequence of deployments -/

theorem filterMap_getElem?_range {α : Type*} (xs : List α) :
    (List.range xs.length).filterMap (xs[·]?) = xs := by
  induction xs using List.reverseRecOn with
  | nil => rfl
  | append_singleton xs x ih =>
    rw [List.length_append, List.length_singleton, List.range_succ, List.filterMap_append]
    have hlast : [xs.length].filterMap ((xs ++ [x])[·]?) = [x] := by simp
    have hfirst : (List.range xs.length).filterMap ((xs ++ [x])[·]?) =
        (List.range xs.length).filterMap (xs[·]?) := by
      refine List.filterMap_congr fun i hi => ?_
      rw [List.getElem?_append_left (List.mem_range.mp hi)]
    rw [hlast, hfirst, ih]

section Sequence

variable {insts : List Deployable} (horder : (instanceDeployOrderReport insts).topological = true)
include horder

theorem deploySequence_perm : (deploySequence insts).Perm insts := by
  have hid : ∀ l : List ℕ, (id l).Perm l := fun l => List.Perm.refl l
  obtain ⟨hperm, -⟩ := topologicalSort_ok hid List.nodup_range (topologicalSort_of_report horder)
  have hmap := hperm.filterMap (insts[·]?)
  rwa [filterMap_getElem?_range] at hmap

/-- The instances that an instance names in its arguments are deployed before it. -/
theorem deployed_before {pre post : List Deployable} {inst : Deployable}
    (hsplit : deploySequence insts = pre ++ inst :: post) {deploy senders : List Expr}
    {sibling : String}
    (h : ArgSource.sibling sibling ∈
      identityCtorArgs insts inst ++ initRouteArgs insts deploy senders inst)
    (hne : sibling ≠ inst.name) : sibling ∈ pre.map (·.name) := by
  have hid : ∀ l : List ℕ, (id l).Perm l := fun l => List.Perm.refl l
  obtain ⟨-, hranked⟩ := topologicalSort_ok hid List.nodup_range (topologicalSort_of_report horder)
  obtain ⟨before, rest, hbefore, rfl, hrest⟩ := List.filterMap_eq_append_iff.mp hsplit
  obtain ⟨skipped, i, after, rfl, hskipped, hi, -⟩ := List.filterMap_eq_cons_iff.mp hrest
  obtain ⟨d, hd, other, hget, rfl⟩ := dep_of_sibling hi h hne
  rw [← List.append_assoc] at hbefore
  have hearlier := hranked.before hbefore hd (List.mem_range.mpr (deployDeps_lt hd))
  rcases List.mem_append.mp hearlier with hmem | hmem
  · exact List.mem_map.mpr ⟨other, List.mem_filterMap.mpr ⟨d, hmem, hget⟩, rfl⟩
  · rw [hskipped d hmem] at hget
    cases hget

end Sequence

/-! ### What is rendered -/

/-- The argument when the instance it names is deployed. -/
def directArg : ArgSource → DeployArg
  | .plain arg => .plain arg
  | .sibling name => .deployed name

section Rendered

variable {insts : List Deployable} {deploy senders : List Expr} {inst : Deployable}

/-- The argument of an instance's own init route. -/
def ownArg (insts : List Deployable) (inst : Deployable) : ArgSource → DeployArg
  | .plain arg => .plain arg
  | .sibling name =>
      if name = inst.name then
        .predicted name inst.entity.name ((identityCtorArgs insts inst).map directArg)
      else .deployed name

def stmtOf (insts : List Deployable) (deploy senders : List Expr) (inst : Deployable) : DeployStmt where
  inst := inst.name
  entity := inst.entity.name
  identity := (identityCtorArgs insts inst).map directArg
  route := (initRouteArgs insts deploy senders inst).map (ownArg insts inst)

theorem find_of_nodup (hnames : (insts.map (·.name)).Nodup) (hinst : inst ∈ insts) :
    insts.find? (·.name == inst.name) = some inst := by
  induction insts with
  | nil => cases hinst
  | cons first rest ih =>
    rw [List.map_cons, List.nodup_cons] at hnames
    rcases List.mem_cons.mp hinst with rfl | hrest
    · exact List.find?_cons_of_pos (beq_self_eq_true _)
    · have hne : (first.name == inst.name) = false := by
        rw [beq_eq_false_iff_ne]
        intro heq
        exact hnames.1 (heq ▸ List.mem_map_of_mem hrest)
      rw [List.find?_cons, hne]
      exact ih hnames.2 hrest

theorem siblingNamed_of_nodup (hnames : (insts.map (·.name)).Nodup) (hinst : inst ∈ insts) :
    siblingNamed insts inst.name = some inst.name := by
  rw [siblingNamed, find_of_nodup hnames hinst]
  rfl

theorem renderArg_deployed {deployed : List String} {name : String} (h : name ∈ deployed) (fuel : ℕ) :
    renderArg insts deployed fuel (.sibling name) = some (.deployed name) := by
  cases fuel with
  | zero => exact if_pos h
  | succ fuel => exact if_pos h

theorem renderArg_plain (deployed : List String) (fuel : ℕ) (arg : PlainArg) :
    renderArg insts deployed fuel (.plain arg) = some (.plain arg) := by
  cases fuel <;> rfl

/-- An instance does not name itself in its identity exactly when no identity member is pinned to
it. -/
theorem noSelfIdentity_iff (hnames : (insts.map (·.name)).Nodup) :
    NoSelfIdentity insts ↔
      ∀ inst ∈ insts, ArgSource.sibling inst.name ∉ identityCtorArgs insts inst := by
  refine forall₂_congr fun inst hinst => ?_
  rw [mem_identityCtorArgs]
  constructor
  · rintro h ⟨m, hm, hid, hpin, -⟩
    exact h m hm hid hpin
  · intro h m hm hid hpin
    exact h ⟨m, hm, hid, hpin, siblingNamed_of_nodup hnames hinst⟩

section Sequence

variable {pre post : List Deployable}
  (horder : (instanceDeployOrderReport insts).topological = true)
  (hnames : (insts.map (·.name)).Nodup) (hself : NoSelfIdentity insts)
  (hsplit : deploySequence insts = pre ++ inst :: post)
include horder hnames hself hsplit

omit hself in
theorem sequence_split :
    inst ∈ insts ∧ inst.name ∉ pre.map (·.name) ∧ inst.name ∉ post.map (·.name) ∧
      ∀ x ∈ pre.map (·.name), x ∉ post.map (·.name) := by
  have hperm := deploySequence_perm horder
  have hnodup := (hperm.map (·.name)).nodup_iff.mpr hnames
  rw [hsplit, List.map_append, List.map_cons, List.nodup_append] at hnodup
  obtain ⟨-, htail, hdisj⟩ := hnodup
  refine ⟨hperm.mem_iff.mp (hsplit ▸ List.mem_append_right pre List.mem_cons_self), ?_,
    (List.nodup_cons.mp htail).1, ?_⟩
  · exact fun hmem => hdisj _ hmem _ List.mem_cons_self rfl
  · exact fun x hx hmem => hdisj _ hx _ (List.mem_cons_of_mem _ hmem) rfl

/-- The identity arguments of an instance name what is deployed before it. -/
theorem identity_before {sibling : String}
    (h : ArgSource.sibling sibling ∈ identityCtorArgs insts inst) : sibling ∈ pre.map (·.name) := by
  obtain ⟨hinst, -⟩ := sequence_split horder hnames hsplit
  have hargs : ArgSource.sibling sibling ∈
      identityCtorArgs insts inst ++ initRouteArgs insts [] [] inst := List.mem_append_left _ h
  refine deployed_before horder hsplit hargs ?_
  rintro rfl
  exact (noSelfIdentity_iff hnames).mp hself inst hinst h

theorem render_identity (fuel : ℕ) :
    (identityCtorArgs insts inst).mapM (renderArg insts (pre.map (·.name)) fuel) =
      some ((identityCtorArgs insts inst).map directArg) := by
  refine mapM_eq_some_map _ fun source hsource => ?_
  cases source with
  | plain arg => exact renderArg_plain _ fuel arg
  | sibling name =>
    exact renderArg_deployed (identity_before horder hnames hself hsplit hsource) fuel

theorem render_route :
    (initRouteArgs insts deploy senders inst).mapM (renderArg insts (pre.map (·.name)) 1) =
      some ((initRouteArgs insts deploy senders inst).map (ownArg insts inst)) := by
  obtain ⟨hinst, hnot, -⟩ := sequence_split horder hnames hsplit
  refine mapM_eq_some_map _ fun source hsource => ?_
  cases source with
  | plain arg => exact renderArg_plain _ 1 arg
  | sibling name =>
    rw [ownArg]
    by_cases hname : name = inst.name
    · subst hname
      rw [if_pos rfl, renderArg, if_neg hnot, find_of_nodup hnames hinst, Option.bind_some,
        render_identity horder hnames hself hsplit]
      rfl
    · rw [if_neg hname]
      exact renderArg_deployed
        (deployed_before horder hsplit (List.mem_append_right _ hsource) hname) 1

end Sequence

/-- The loop comes back with one statement for every instance. -/
theorem genDeploys_eq (horder : (instanceDeployOrderReport insts).topological = true)
    (hnames : (insts.map (·.name)).Nodup) (hself : NoSelfIdentity insts) (rest : List Deployable) :
    ∀ pre, deploySequence insts = pre ++ rest →
      genDeploys insts deploy senders 1 (pre.map (·.name)) rest =
        some (rest.map (stmtOf insts deploy senders)) := by
  induction rest with
  | nil => exact fun _ _ => rfl
  | cons inst rest ih =>
    intro pre hsplit
    have hrest := ih (pre ++ [inst]) (by rw [hsplit, List.append_assoc]; rfl)
    rw [List.map_append, List.map_singleton] at hrest
    rw [genDeploys, genDeploy, render_identity horder hnames hself hsplit, Option.bind_some,
      render_route horder hnames hself hsplit, Option.map_some, Option.bind_some, hrest]
    rfl

/-- An instance that is pinned to itself in its identity is never rendered. -/
theorem renderArg_self (hnames : (insts.map (·.name)).Nodup) (hinst : inst ∈ insts)
    (hself : ArgSource.sibling inst.name ∈ identityCtorArgs insts inst) {deployed : List String}
    (hnot : inst.name ∉ deployed) (fuel : ℕ) :
    renderArg insts deployed fuel (.sibling inst.name) = none := by
  induction fuel with
  | zero => exact if_neg hnot
  | succ fuel ih =>
    rw [renderArg, if_neg hnot, find_of_nodup hnames hinst, Option.bind_some]
    cases hmap : (identityCtorArgs insts inst).mapM (renderArg insts deployed fuel) with
    | none => rfl
    | some args =>
      obtain ⟨arg, -, harg⟩ := (mem_of_mapM hmap).1 _ hself
      rw [ih] at harg
      cases harg

theorem genDeploys_split {fuel : ℕ} (pre : List Deployable) : ∀ {deployed : List String}
    {post : List Deployable} {stmts : List DeployStmt},
    genDeploys insts deploy senders fuel deployed (pre ++ inst :: post) = some stmts →
      ∃ s, genDeploy insts deploy senders (deployed ++ pre.map (·.name)) fuel inst = some s := by
  induction pre with
  | nil =>
    intro deployed post stmts h
    obtain ⟨s, hs, -⟩ := Option.bind_eq_some_iff.mp h
    rw [List.map_nil, List.append_nil]
    exact ⟨s, hs⟩
  | cons first pre ih =>
    intro deployed post stmts h
    obtain ⟨_, -, hloop⟩ := Option.bind_eq_some_iff.mp h
    obtain ⟨rest, hrest, -⟩ := Option.map_eq_some_iff.mp hloop
    obtain ⟨s, hs⟩ := ih hrest
    rw [List.append_assoc] at hs
    exact ⟨s, hs⟩

end Rendered

/-! ### What the references denote -/

section Denoted

variable {V : Type} {c : Chain V}

theorem allDenote_iff {env final : String → Option V} {args : List DeployArg} :
    AllDenote c env final args ↔ ∀ a ∈ args, a.Denotes c env final := by
  induction args with
  | nil => simp [AllDenote]
  | cons a args ih => rw [AllDenote, ih, List.forall_mem_cons]

theorem evalAll_eq_mapM (env : String → Option V) (args : List DeployArg) :
    evalAll c env args = args.mapM (DeployArg.eval c env) := by
  induction args with
  | nil => rfl
  | cons a args ih =>
    rw [evalAll, List.mapM_cons, ih]
    cases a.eval c env with
    | none => rfl
    | some v => cases args.mapM (DeployArg.eval c env) <;> rfl

theorem runDeploys_append (as bs : List DeployStmt) (env : String → Option V) :
    runDeploys c env (as ++ bs) = (runDeploys c env as).bind (runDeploys c · bs) := by
  induction as generalizing env with
  | nil => rfl
  | cons s as ih =>
    simp only [List.cons_append, runDeploys, ih, Option.bind_assoc]

theorem runDeploys_keeps {name : String} (stmts : List DeployStmt) :
    ∀ {env final : String → Option V}, runDeploys c env stmts = some final →
      name ∉ stmts.map (·.inst) → final name = env name := by
  induction stmts with
  | nil =>
    rintro env final h -
    cases h
    rfl
  | cons s stmts ih =>
    intro env final h hnot
    rw [List.map_cons, List.mem_cons, not_or] at hnot
    obtain ⟨ids, -, h⟩ := Option.bind_eq_some_iff.mp h
    obtain ⟨_, -, h⟩ := Option.bind_eq_some_iff.mp h
    rw [ih h hnot.2, Function.update_of_ne hnot.1]

theorem runDeploys_sets {name : String} (stmts : List DeployStmt) :
    ∀ {env final : String → Option V}, runDeploys c env stmts = some final →
      name ∈ stmts.map (·.inst) → ∃ a, final name = some a := by
  induction stmts with
  | nil => rintro env final - hmem; cases hmem
  | cons s stmts ih =>
    intro env final h hmem
    obtain ⟨ids, -, h⟩ := Option.bind_eq_some_iff.mp h
    obtain ⟨_, -, h⟩ := Option.bind_eq_some_iff.mp h
    by_cases hlater : name ∈ stmts.map (·.inst)
    · exact ih h hlater
    · rcases List.mem_cons.mp hmem with rfl | hmem
      · rw [runDeploys_keeps stmts h hlater, Function.update_self]
        exact ⟨_, rfl⟩
      · exact absurd hmem hlater

variable {insts : List Deployable} {deploy senders : List Expr}

theorem map_inst_stmtOf (xs : List Deployable) :
    (xs.map (stmtOf insts deploy senders)).map (·.inst) = xs.map (·.name) := by
  rw [List.map_map]
  rfl

section Sequence

variable {inst : Deployable} {pre post : List Deployable}
  (horder : (instanceDeployOrderReport insts).topological = true)
  (hnames : (insts.map (·.name)).Nodup) (hself : NoSelfIdentity insts)
  (hsplit : deploySequence insts = pre ++ inst :: post) {env : String → Option V}
  (henv : ∀ name ∈ pre.map (·.name), ∃ a, env name = some a)
include horder hnames hself hsplit henv

theorem eval_identity :
    ∃ ids, evalAll c env ((identityCtorArgs insts inst).map directArg) = some ids := by
  rw [evalAll_eq_mapM]
  refine mapM_returns.mpr fun a ha => ?_
  obtain ⟨source, hsource, rfl⟩ := List.mem_map.mp ha
  cases source with
  | plain arg => exact ⟨_, rfl⟩
  | sibling name => exact henv name (identity_before horder hnames hself hsplit hsource)

theorem eval_route :
    ∃ vs, evalAll c env ((initRouteArgs insts deploy senders inst).map (ownArg insts inst)) =
      some vs := by
  rw [evalAll_eq_mapM]
  refine mapM_returns.mpr fun a ha => ?_
  obtain ⟨source, hsource, rfl⟩ := List.mem_map.mp ha
  cases source with
  | plain arg => exact ⟨_, rfl⟩
  | sibling name =>
    rw [ownArg]
    by_cases hname : name = inst.name
    · obtain ⟨ids, hids⟩ := eval_identity (c := c) horder hnames hself hsplit henv
      rw [if_pos hname, DeployArg.eval, hids]
      exact ⟨_, rfl⟩
    · rw [if_neg hname]
      exact henv name (deployed_before horder hsplit (List.mem_append_right _ hsource) hname)

/-- What is deployed already keeps its address, and the instance is given the predicted one. -/
theorem denotes_of_run {final : String → Option V}
    (hfinal : runDeploys c env ((inst :: post).map (stmtOf insts deploy senders)) = some final) :
    AllDenote c env final ((stmtOf insts deploy senders inst).identity ++
      (stmtOf insts deploy senders inst).route) := by
  obtain ⟨-, hpre, hpost, hdisj⟩ := sequence_split horder hnames hsplit
  obtain ⟨ids, hids⟩ := eval_identity (c := c) horder hnames hself hsplit henv
  have hearlier : ∀ name ∈ pre.map (·.name), ∃ a, env name = some a ∧ final name = some a := by
    intro name hname
    obtain ⟨a, ha⟩ := henv name hname
    refine ⟨a, ha, ?_⟩
    rw [runDeploys_keeps _ hfinal, ha]
    rw [map_inst_stmtOf, List.map_cons, List.mem_cons, not_or]
    exact ⟨fun heq => hpre (heq ▸ hname), hdisj name hname⟩
  have hown : final inst.name = some (c.create2 inst.entity.name ids) := by
    rw [List.map_cons, runDeploys, stmtOf, hids, Option.bind_some] at hfinal
    obtain ⟨_, -, hrest⟩ := Option.bind_eq_some_iff.mp hfinal
    rw [runDeploys_keeps _ hrest, Function.update_self]
    rwa [map_inst_stmtOf]
  have hidentity : ∀ a ∈ (identityCtorArgs insts inst).map directArg, a.Denotes c env final := by
    intro a ha
    obtain ⟨source, hsource, rfl⟩ := List.mem_map.mp ha
    cases source with
    | plain arg => trivial
    | sibling name => exact hearlier name (identity_before horder hnames hself hsplit hsource)
  rw [allDenote_iff]
  intro a ha
  rcases List.mem_append.mp ha with ha | ha
  · exact hidentity a ha
  · obtain ⟨source, hsource, rfl⟩ := List.mem_map.mp ha
    cases source with
    | plain arg => trivial
    | sibling name =>
      rw [ownArg]
      by_cases hname : name = inst.name
      · rw [if_pos hname, DeployArg.Denotes, DeployArg.eval, hids, hname]
        exact ⟨⟨_, rfl, hown⟩, allDenote_iff.mpr hidentity⟩
      · rw [if_neg hname]
        exact hearlier name
          (deployed_before horder hsplit (List.mem_append_right _ hsource) hname)

end Sequence

theorem run_prefix (horder : (instanceDeployOrderReport insts).topological = true)
    (hnames : (insts.map (·.name)).Nodup) (hself : NoSelfIdentity insts) (rest : List Deployable) :
    ∀ (pre : List Deployable) (env : String → Option V), deploySequence insts = pre ++ rest →
      (∀ name ∈ pre.map (·.name), ∃ a, env name = some a) →
      ∃ final, runDeploys c env (rest.map (stmtOf insts deploy senders)) = some final := by
  induction rest with
  | nil => exact fun _ env _ _ => ⟨env, rfl⟩
  | cons inst rest ih =>
    intro pre env hsplit henv
    obtain ⟨ids, hids⟩ := eval_identity (c := c) horder hnames hself hsplit henv
    obtain ⟨vs, hvs⟩ : ∃ vs, evalAll c env
        ((initRouteArgs insts deploy senders inst).map (ownArg insts inst)) = some vs :=
      eval_route horder hnames hself hsplit henv
    rw [List.map_cons, runDeploys, stmtOf, hids, Option.bind_some, hvs, Option.bind_some]
    refine ih (pre ++ [inst]) _ (by rw [hsplit, List.append_assoc]; rfl) fun name hname => ?_
    by_cases heq : name = inst.name
    · rw [heq, Function.update_self]
      exact ⟨_, rfl⟩
    · rw [Function.update_of_ne heq]
      rw [List.map_append, List.mem_append, List.map_singleton, List.mem_singleton] at hname
      exact henv name (hname.resolve_right heq)

/-- **The deployments are sound** exactly when no identity member of an instance is pinned to the
instance itself. -/
theorem deploysSoundly_of_order (horder : (instanceDeployOrderReport insts).topological = true)
    (hnames : (insts.map (·.name)).Nodup) :
    DeploysSoundly insts deploy senders ↔ NoSelfIdentity insts := by
  have hperm := deploySequence_perm horder
  constructor
  · rintro ⟨fuel, stmts, hgen, -⟩
    refine (noSelfIdentity_iff hnames).mpr fun inst hinst hself => ?_
    obtain ⟨pre, post, hsplit⟩ := List.append_of_mem (hperm.mem_iff.mpr hinst)
    rw [hsplit] at hgen
    obtain ⟨s, hs⟩ := genDeploys_split pre hgen
    obtain ⟨-, hnot, -⟩ := sequence_split horder hnames hsplit
    obtain ⟨args, hargs, -⟩ := Option.bind_eq_some_iff.mp hs
    obtain ⟨arg, -, harg⟩ := (mem_of_mapM hargs).1 _ hself
    rw [List.nil_append, renderArg_self hnames hinst hself hnot] at harg
    cases harg
  · intro hself
    refine ⟨1, (deploySequence insts).map (stmtOf insts deploy senders),
      genDeploys_eq horder hnames hself (deploySequence insts) [] rfl, ?_, ?_, ?_⟩
    · rw [map_inst_stmtOf]
      exact hperm.map (·.name)
    · intro pre inst post hsplit sibling hsibling hne
      exact deployed_before horder hsplit hsibling hne
    · intro V c
      obtain ⟨final, hfinal⟩ : ∃ final, runDeploys c (fun _ => none)
          ((deploySequence insts).map (stmtOf insts deploy senders)) = some final :=
        run_prefix horder hnames hself (deploySequence insts) [] (fun _ => none) rfl
          (fun _ h => by cases h)
      refine ⟨final, hfinal, ?_⟩
      intro before s after hstmts
      obtain ⟨pre, rest, hsplit, rfl, hrest⟩ := List.map_eq_append_iff.mp hstmts
      obtain ⟨inst, post, rfl, rfl, rfl⟩ := List.map_eq_cons_iff.mp hrest
      rw [hsplit, List.map_append, runDeploys_append] at hfinal
      obtain ⟨env, henv, hfinal⟩ := Option.bind_eq_some_iff.mp hfinal
      refine ⟨env, henv, denotes_of_run horder hnames hself hsplit ?_ hfinal⟩
      intro name hname
      exact runDeploys_sets _ henv (by rwa [map_inst_stmtOf])

end Denoted

end CambrianLang.Invariants
