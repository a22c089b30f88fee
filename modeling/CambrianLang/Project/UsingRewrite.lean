/-
  **`using .. for T`: method-call sugar** (`using_rewrite.rs`, and the type inference
  of `codegen/types.rs` it rests on).

  A call `recv.method(args)` becomes `method(recv, args)` when a `using` declaration
  attaches the method to the type inferred for the receiver.  The rewrite works from
  the leaves up, so the receivers it looks at are already rewritten.
-/
import CambrianLang.Ast.Literals
import CambrianLang.Solidity.Intrinsics

namespace CambrianLang.Authored

open Ast BottomUp
open Solidity (ParseStrMeta parseStrMeta isStdNamespace)

/-! ### Inferring a type -/

/-- `parse_str_inner_type`. -/
def parseStrInnerType (m : ParseStrMeta) : Ty :=
  .simple <|
    if m.bits = 256 then (if m.signed then "i128" else "U256")
    else if m.signed then
      match m.bits with
      | 8 => "i8" | 16 => "i16" | 32 => "i32" | 64 => "i64" | 128 => "i128" | _ => "i64"
    else
      match m.bits with
      | 8 => "u8" | 16 => "u16" | 32 => "u32" | 64 => "u64" | 128 => "u128" | _ => "u64"

/-- `parse_str_return_type`. -/
def parseStrReturnType (m : ParseStrMeta) : Ty := .generic "Option" [parseStrInnerType m]

/-- `infer_std_call_return_type`. -/
def inferStdCallReturnType (ns name : String) : Option Ty :=
  match ns, name with
  | "std::str", "format" => some (.simple "String")
  | "std::str", name => (parseStrMeta name).map parseStrReturnType
  | "std::crypto", "sha256" => some (.generic "Vec" [.simple "u8"])
  | "std::math", "divmod" | "std::math", "minmax" => some (.tuple [.simple "u64", .simple "u64"])
  | "std::math", _ => some (.simple "u64")
  | _, _ => none

/-- The type of a member of the entity. -/
def Scope.member (scope : Scope) (name : String) : Option Ty :=
  (scope.members.find? fun m => m.name == name).map (·.ty)

/-- The type of an identifier: a member's, else a parameter's. -/
def Scope.ident (scope : Scope) (name : String) : Option Ty :=
  match scope.member name with
  | some ty => some ty
  | none => (scope.params.find? fun p => p.name == name).map (·.ty)

def sysFieldType : String → Option Ty
  | "pubkey" => some (.simple "pubkey")
  | "now" | "logicaltime" => some (.simple "u64")
  | "rnd_seed" | "balance" => some (.simple "u128")
  | "address" => some (.simple "address")
  | _ => none

def msgFieldType : String → Option Ty
  | "pubkey" => some (.simple "pubkey")
  | "sender" => some (.simple "address")
  | "timestamp" | "logicaltime" => some (.simple "u64")
  | "value" => some (.simple "u128")
  | "int" | "ext" => some (.simple "bool")
  | "currencies" => some (.generic "HashMap" [.simple "u32", .simple "u128"])
  | _ => none

/-- The value type of a map. -/
def mapValueType : Option Ty → Option Ty
  | some (.generic name [_, value]) => if name == "HashMap" || name == "Map" then some value else none
  | _ => none

/-- The element type of a map or a vector. -/
def indexedType : Option Ty → Option Ty
  | some (.generic name [elem]) => if name == "Vec" then some elem else none
  | ty => mapValueType ty

/-- The type of a namespaced call. -/
def namespacedType (ns name : String) (tys : List Ty) : Option Ty :=
  if isStdNamespace ns then inferStdCallReturnType ns name
  else
    match name with
    | "hash" => some (.simple "U256")
    | "code" | "codeSalt" | "encode" => some (.simple "CamData")
    | "decode" =>
      match tys with
      | [] => none
      | [ty] => some (.tuple [ty, .simple "CamData"])
      | tys => some (.tuple [.tuple tys, .simple "CamData"])
    | "ecrecover" => if ns == "evm" then some (.simple "address") else none
    | "keccak256Packed" => if ns == "evm" then some (.simple "U256") else none
    | _ => none

mutual
/-- `infer_expr_type`; of the entity it reads the members, of the route the parameters. -/
def inferExprType (scope : Scope) : Expr → Option Ty
  | .ident name => scope.ident name
  | .temporalRef name => scope.member name
  | .intLiteral v =>
    some (.simple (if v.hi ≠ 0 then "U256" else if 2 ^ 64 - 1 < v.lo.toNat then "u128" else "u64"))
  | .boolLiteral _ => some (.simple "bool")
  | .stringLiteral _ => some (.simple "String")
  | .cast _ ty => some ty
  | .sysField field => sysFieldType field
  | .msgField field => msgFieldType field
  | .fnCall name args =>
    if name == "cam_add" || name == "cam_sub" || name == "cam_mul" then firstType scope args
    else none
  | .binOp l _ r =>
    match inferExprType scope l with
    | some ty => some ty
    | none => inferExprType scope r
  | .index base _ => indexedType (inferExprType scope base)
  | .methodCall base method _ =>
    if method == "cam_get" || method == "get" then mapValueType (inferExprType scope base)
    else if method == "clone" then inferExprType scope base
    else none
  | .namespacedCall ns name _ tys => namespacedType ns name tys
  | _ => none
/-- The type of the first argument that has one. -/
def firstType (scope : Scope) : List Expr → Option Ty
  | [] => none
  | e :: es =>
    match inferExprType scope e with
    | some ty => some ty
    | none => firstType scope es
end

/-! ### What is attached to what -/

/-- `canonical_for_using`. -/
def canonicalForUsing : Ty → Ty
  | .simple name =>
    .simple <|
      match name with
      | "uint256" | "U256" | "u256" => "u256"
      | "Address" | "address" => "address"
      | other => other
  | ty => ty

/-- `using_target_matches`. -/
def usingTargetMatches (target receiver : Ty) : Bool :=
  canonicalForUsing target = canonicalForUsing receiver

structure UsingEntry where
  targetType : Ty
  libName : Option String

/-- The functions of a library; of two libraries of one name the later counts. -/
def libFns (p : Program) (libName : String) : Option (List String) :=
  (p.libraries.reverse.find? fun lib => lib.name == libName).map fun lib =>
    lib.pureFns.map (·.name)

/-- The methods a `using` declaration attaches. -/
def attachedMethods (p : Program) (ud : UsingDecl) : List (String × UsingEntry) :=
  match ud.items with
  | .functions names =>
    (names.filter fun name => p.pureFns.any fun fn => fn.name == name).map fun name =>
      (name, ⟨ud.targetType, none⟩)
  | .library libName =>
    ((libFns p libName).getD []).map fun name => (name, ⟨ud.targetType, some libName⟩)

/-- `by_method`. -/
def byMethod (p : Program) : List (String × UsingEntry) :=
  p.usingDecls.flatMap (attachedMethods p)

/-- `pure_fn_returns`, in the order of insertion. -/
def pureFnReturns (p : Program) : List (String × Ty) :=
  p.pureFns.map (fun fn => (fn.name, fn.returnType)) ++
    p.libraries.flatMap fun lib => lib.pureFns.flatMap fun fn =>
      [(fn.name, fn.returnType), (lib.name ++ "." ++ fn.name, fn.returnType)]

/-- A lookup in a map filled in the given order. -/
def lastEntry (entries : List (String × Ty)) (key : String) : Option Ty :=
  (entries.reverse.find? fun entry => entry.1 == key).map (·.2)

/-- What the pass reads of a program before it rewrites. -/
structure UsingTables where
  byMethod : List (String × UsingEntry)
  pureFnReturns : List (String × Ty)

def usingTables (p : Program) : UsingTables := ⟨byMethod p, pureFnReturns p⟩

/-- `infer_receiver_type`. -/
def inferReceiverType (returns : List (String × Ty)) (scope : Scope) (e : Expr) : Option Ty :=
  let known :=
    match e with
    | .fnCall name _ => lastEntry returns name
    | .methodCall (.ident lib) method _ => lastEntry returns (lib ++ "." ++ method)
    | _ => none
  match known with
  | some ty => some ty
  | none => inferExprType scope e

/-! ### The rewrite -/

variable (tables : UsingTables)

/-- One node, its subexpressions being rewritten. -/
def rewriteCall (scope : Scope) : Expr → Expr
  | .methodCall recv method args =>
    match inferReceiverType tables.pureFnReturns scope recv with
    | some ty =>
      if tables.byMethod.any fun entry =>
          entry.1 == method && usingTargetMatches entry.2.targetType ty then
        .fnCall method (recv :: args)
      else .methodCall recv method args
    | none => .methodCall recv method args
  | e => e

/-- `rewrite_expr`; `rewrite_children` descends into the subexpressions `map_expr` does. -/
def rewriteExpr (scope : Scope) : Expr → Expr := mapExpr (rewriteCall tables scope)

/-- The arguments of a `from` clause; the rest of it is passed over. -/
def rewriteFromClause (g : Expr → Expr) (fc : FromClause) : FromClause :=
  { fc with args := fc.args.map g }

def rewriteRoute (entity : Contract) (route : Route) : Route :=
  let g := rewriteExpr tables (Contract.scope entity route.params)
  { route with
    whereClauses := route.whereClauses.map (mapWhereClause g)
    fromClauses := route.fromClauses.map (rewriteFromClause g)
    body := mapRouteBody g route.body }

def rewriteMember (entity : Contract) (m : Member) : Member :=
  { m with
    transforms := m.transforms.map fun t =>
      mapTransform (rewriteExpr tables (Contract.scope entity (transformParams entity t))) t
    defaultValue := m.defaultValue.map (rewriteExpr tables (Contract.scope entity [])) }

/-- `rewrite_entity`, `entity` being the snapshot taken before. -/
def rewriteEntityIn (snapshot entity : Contract) : Contract :=
  { entity with
    routes := entity.routes.map (rewriteRoute tables snapshot)
    members := entity.members.map (rewriteMember tables snapshot)
    macros := entity.macros.map fun m =>
      mapMacro (rewriteExpr tables (Contract.scope snapshot m.params)) m
    constants := entity.constants.map (mapConst (rewriteExpr tables (Contract.scope snapshot []))) }

def rewriteEntity (entity : Contract) : Contract := rewriteEntityIn tables entity entity

/-- `apply_using_rewrites`. -/
def applyUsingRewrites (p : Program) : Program :=
  if p.usingDecls.isEmpty || (byMethod p).isEmpty then p
  else { p with entities := p.entities.map (rewriteEntity (usingTables p)) }

/-! ### Sugar -/

/-- A `using` declaration of the program attaches `method` to its target type. -/
def Attaches (p : Program) (ud : UsingDecl) (method : String) : Prop :=
  match ud.items with
  | .functions names => method ∈ names ∧ ∃ fn ∈ p.pureFns, fn.name = method
  | .library libName => ∃ fns, libFns p libName = some fns ∧ method ∈ fns

/-- A method call that a declaration in scope attaches to the type inferred for its
    receiver. -/
def Sugar (p : Program) (scope : Scope) (e : Expr) : Prop :=
  ∃ recv method args ty, e = .methodCall recv method args ∧
    inferReceiverType (pureFnReturns p) scope recv = some ty ∧
    ∃ ud ∈ p.usingDecls, Attaches p ud method ∧
      canonicalForUsing ud.targetType = canonicalForUsing ty

/-- No subexpression is sugar. -/
def SugarFree (p : Program) (scope : Scope) (e : Expr) : Prop :=
  Everywhere (fun s => ¬ Sugar p scope s) e

theorem mem_attachedMethods {p : Program} {ud : UsingDecl} {method : String} {ty : Ty} :
    (∃ entry ∈ attachedMethods p ud, entry.1 = method ∧
        usingTargetMatches entry.2.targetType ty = true) ↔
      Attaches p ud method ∧ canonicalForUsing ud.targetType = canonicalForUsing ty := by
  obtain ⟨items, target⟩ := ud
  cases items with
  | functions names =>
    simp only [attachedMethods, Attaches, usingTargetMatches, List.mem_map, List.mem_filter,
      List.any_eq_true, beq_iff_eq, decide_eq_true_eq]
    constructor
    · rintro ⟨entry, ⟨name, ⟨hname, fn, hfn, rfl⟩, rfl⟩, rfl, hty⟩
      exact ⟨⟨hname, fn, hfn, rfl⟩, hty⟩
    · rintro ⟨⟨hname, fn, hfn, rfl⟩, hty⟩
      exact ⟨_, ⟨fn.name, ⟨hname, fn, hfn, rfl⟩, rfl⟩, rfl, hty⟩
  | library libName =>
    cases hfns : libFns p libName <;>
      simp [attachedMethods, Attaches, usingTargetMatches, hfns]

/-- The table holds what the declarations attach. -/
theorem byMethod_any {p : Program} {method : String} {ty : Ty} :
    ((byMethod p).any fun entry =>
        entry.1 == method && usingTargetMatches entry.2.targetType ty) = true ↔
      ∃ ud ∈ p.usingDecls, Attaches p ud method ∧
        canonicalForUsing ud.targetType = canonicalForUsing ty := by
  simp only [← mem_attachedMethods, byMethod, List.any_flatMap, List.any_eq_true, Bool.and_eq_true,
    beq_iff_eq]

variable {p : Program} {scope : Scope}

theorem rewriteCall_of_not_sugar {e : Expr} (h : ¬ Sugar p scope e) :
    rewriteCall (usingTables p) scope e = e := by
  fun_cases rewriteCall (usingTables p) scope e with
  | case1 recv method args ty hty hany =>
    exact absurd ⟨recv, method, args, ty, rfl, hty, byMethod_any.mp hany⟩ h
  | case2 | case3 | case4 => rfl

variable (p scope)

/-- A node is sugar, and becomes a call of the attached function, or it stays as it is. -/
theorem rewriteCall_cases (e : Expr) :
    (∃ recv method args, e = .methodCall recv method args ∧
      rewriteCall (usingTables p) scope e = .fnCall method (recv :: args)) ∨
    (¬ Sugar p scope e ∧ rewriteCall (usingTables p) scope e = e) := by
  by_cases h : Sugar p scope e
  · obtain ⟨recv, method, args, ty, rfl, hty, hattached⟩ := h
    refine Or.inl ⟨recv, method, args, rfl, ?_⟩
    have hany := byMethod_any.mpr hattached
    simp only [rewriteCall, usingTables, hty, hany, if_true]
  · exact Or.inr ⟨h, rewriteCall_of_not_sugar h⟩

/-- What the rewrite leaves at a node has the subexpressions of the node. -/
theorem children_rewriteCall (e : Expr) :
    (rewriteCall (usingTables p) scope e).children = e.children := by
  rcases rewriteCall_cases p scope e with ⟨recv, method, args, rfl, heq⟩ | ⟨-, heq⟩
  · rw [heq]
    rfl
  · rw [heq]

theorem not_sugar_rewriteCall (e : Expr) :
    ¬ Sugar p scope (rewriteCall (usingTables p) scope e) := by
  rcases rewriteCall_cases p scope e with ⟨recv, method, args, rfl, heq⟩ | ⟨hnot, heq⟩
  · rw [heq]
    rintro ⟨_, _, _, _, hcall, -⟩
    exact Expr.noConfusion hcall
  · rwa [heq]

/-- **An expression the rewrite has seen is free of sugar.** -/
theorem sugarFree_rewriteExpr (e : Expr) :
    SugarFree p scope (rewriteExpr (usingTables p) scope e) := by
  refine mapExpr_rewrites.everywhere (fun a ha => ?_) e
  refine Layered.everywhere_iff.mpr ⟨not_sugar_rewriteCall p scope a, ?_⟩
  intro b hb
  apply ha b
  show b ∈ a.children
  rw [← children_rewriteCall p scope a]
  exact hb

variable {p scope}

theorem rewriteExpr_of_sugarFree {e : Expr} (h : SugarFree p scope e) :
    rewriteExpr (usingTables p) scope e = e :=
  mapExpr_rewrites.eq_self (h.imp fun _ hs => rewriteCall_of_not_sugar hs)

/-! ### Where the pass comes -/

/-- The forms of places the pass visits. -/
def SiteKind.rewritten : SiteKind → Bool
  | .memberDefault | .transformBody | .macroBody | .constant | .fromArg | .whereCondition
  | .phaseCondition | .action => true
  | _ => false

/-- The pass, seen at one site. -/
abbrev Site.rewritten : Site → Site := Site.mapBy SiteKind.rewritten (rewriteExpr tables)

theorem sitesAt_rewritten (kind : SiteKind) (hkind : kind.rewritten = true) (scope : Scope)
    (es : List Expr) :
    sitesAt kind scope (es.map (rewriteExpr tables scope)) =
      (sitesAt kind scope es).map (Site.rewritten tables) :=
  sitesAt_visited (rewriteExpr tables) scope hkind es

theorem sitesAt_unrewritten (kind : SiteKind) (hkind : kind.rewritten = false) (scope : Scope)
    (es : List Expr) :
    (sitesAt kind scope es).map (Site.rewritten tables) = sitesAt kind scope es :=
  (sitesAt_passed (rewriteExpr tables) scope hkind es).symm

theorem contractScope_rewrite (snapshot entity : Contract) (params : List Param) :
    Contract.scope (rewriteEntityIn tables snapshot entity) params =
      Contract.scope entity params := by
  simp [Contract.scope, rewriteEntityIn, rewriteMember]

theorem transformParams_rewrite (snapshot entity : Contract) (t : MemberTransform)
    (g : Expr → Expr) :
    transformParams (rewriteEntityIn tables snapshot entity) (mapTransform g t) =
      transformParams entity t := by
  have hname : (fun r : Route => r.name == t.routeName) ∘ rewriteRoute tables snapshot =
      fun r => r.name == t.routeName := rfl
  simp only [transformParams, rewriteEntityIn, mapTransform, List.find?_map, hname]
  cases entity.routes.find? fun r => r.name == t.routeName <;> rfl

theorem routeSites_rewrite (entity : Contract) (route : Route) :
    Route.sites (rewriteEntity tables entity) (rewriteRoute tables entity route) =
      (Route.sites entity route).map (Site.rewritten tables) := by
  have hbody := routeBodySites_map SiteKind.rewritten (rewriteExpr tables)
    (Contract.scope entity route.params) rfl rfl rfl route.body
  simp only [Route.sites, rewriteEntity, contractScope_rewrite, rewriteRoute, List.flatMap_map,
    List.map_append, List.map_flatMap, FromClause.sites, WhereClause.sites, rewriteFromClause,
    mapWhereClause, hbody]
  simp only [sitesAt_rewritten tables .fromArg rfl, sitesAt_unrewritten tables .fromWith rfl,
    ← sitesAt_rewritten tables .whereCondition rfl, List.map_cons, List.map_nil,
    sitesAt_unrewritten tables .fromErrorArg rfl, sitesAt_unrewritten tables .whereErrorArg rfl]

theorem memberSites_rewrite (entity : Contract) (m : Member) :
    Member.sites (rewriteEntity tables entity) (rewriteMember tables entity m) =
      (Member.sites entity m).map (Site.rewritten tables) := by
  simp only [Member.sites, rewriteEntity, contractScope_rewrite, rewriteMember, option_toList_map,
    List.flatMap_map, transformParams_rewrite, List.map_append, List.map_flatMap,
    sitesAt_rewritten tables .memberDefault rfl, ← sitesAt_rewritten tables .transformBody rfl,
    List.map_cons, List.map_nil]
  rfl

theorem contractSites_rewrite (entity : Contract) :
    Contract.sites (rewriteEntity tables entity) =
      (Contract.sites entity).map (Site.rewritten tables) := by
  have hscope : ∀ params, Contract.scope (rewriteEntity tables entity) params =
      Contract.scope entity params := contractScope_rewrite tables entity entity
  have hmembers : (rewriteEntity tables entity).members =
      entity.members.map (rewriteMember tables entity) := rfl
  have hroutes : (rewriteEntity tables entity).routes =
      entity.routes.map (rewriteRoute tables entity) := rfl
  have hmacros : (rewriteEntity tables entity).macros = entity.macros.map fun m =>
      mapMacro (rewriteExpr tables (Contract.scope entity m.params)) m := rfl
  have hconsts : (rewriteEntity tables entity).constants.map (·.value) =
      (entity.constants.map (·.value)).map (rewriteExpr tables (Contract.scope entity [])) := by
    simp [rewriteEntity, rewriteEntityIn, mapConst]
  simp only [Contract.sites, hmembers, hroutes, hmacros, hconsts, hscope, List.flatMap_map,
    memberSites_rewrite, routeSites_rewrite, List.map_append, List.map_flatMap,
    sitesAt_rewritten tables .constant rfl, ← sitesAt_rewritten tables .macroBody rfl, mapMacro,
    List.map_cons, List.map_nil]

theorem testScope_rewrite (entities : List Contract) (name : String) (params : List Param) :
    testScope (entities.map (rewriteEntity tables)) name params =
      testScope entities name params := by
  have hname : (fun e : Contract => e.name == name) ∘ rewriteEntity tables =
      fun e => e.name == name := rfl
  simp only [testScope, List.find?_map, hname]
  cases entities.find? fun e => e.name == name with
  | none => rfl
  | some e => exact contractScope_rewrite tables e e params

/-- Sites of forms that the pass passes over. -/
def Unvisited (sites : List Site) : Prop := ∀ s ∈ sites, s.kind.rewritten = false

theorem Unvisited.rewritten {sites : List Site} (h : Unvisited sites) :
    sites.map (Site.rewritten tables) = sites :=
  map_fixed fun s hs => by simp [Site.rewritten, Site.mapBy, h s hs]

theorem unvisited_append {xs ys : List Site} (hxs : Unvisited xs) (hys : Unvisited ys) :
    Unvisited (xs ++ ys) := by
  intro s hs
  rcases List.mem_append.mp hs with h | h
  · exact hxs s h
  · exact hys s h

theorem unvisited_flatMap {α : Type} {xs : List α} {f : α → List Site}
    (h : ∀ x, Unvisited (f x)) : Unvisited (xs.flatMap f) := by
  intro s hs
  obtain ⟨x, -, hx⟩ := List.mem_flatMap.mp hs
  exact h x s hx

theorem unvisited_sitesAt (kind : SiteKind) (hkind : kind.rewritten = false) (scope : Scope)
    (es : List Expr) : Unvisited (sitesAt kind scope es) := by
  intro s hs
  obtain ⟨e, -, rfl⟩ := List.mem_map.mp hs
  exact hkind

theorem unvisited_stepSites (value path : SiteKind) (hvalue : value.rewritten = false)
    (hpath : path.rewritten = false) (scope : Scope) (steps : List TestStep) :
    Unvisited (stepSites value path scope steps) :=
  unvisited_flatMap fun _ =>
    unvisited_append (unvisited_sitesAt value hvalue _ _) (unvisited_sitesAt path hpath _ _)

theorem unvisited_pureFn (kind : SiteKind) (hkind : kind.rewritten = false) (fn : PureFn) :
    Unvisited (PureFn.sites kind fn) := unvisited_sitesAt kind hkind _ _

theorem unvisited_library (lib : LibraryDecl) : Unvisited (LibraryDecl.sites lib) :=
  unvisited_append (unvisited_flatMap fun fn => unvisited_pureFn .libraryFnBody rfl fn)
    (unvisited_sitesAt .libraryConstant rfl _ _)

theorem unvisited_test (entities : List Contract) (params : List Param) (test : TestDecl) :
    Unvisited (TestDecl.sites entities params test) :=
  unvisited_append (unvisited_sitesAt .testInit rfl _ _)
    (unvisited_stepSites .testStep .testPathIndex rfl rfl _ _)

theorem unvisited_property (entities : List Contract) (prop : PropertyDecl) :
    Unvisited (PropertyDecl.sites entities prop) := by
  refine unvisited_append (unvisited_append (unvisited_append ?_ ?_) ?_) ?_
  · exact unvisited_sitesAt .propertyInit rfl _ _
  · exact unvisited_sitesAt .propertyContext rfl _ _
  · exact unvisited_stepSites .propertyStep .propertyPathIndex rfl rfl _ _
  · refine unvisited_flatMap fun inst => ?_
    refine unvisited_append (unvisited_append (unvisited_append ?_ ?_) ?_) ?_
    · exact unvisited_sitesAt .instanceBinding rfl _ _
    · exact unvisited_sitesAt .instanceInit rfl _ _
    · exact unvisited_sitesAt .instanceContext rfl _ _
    · exact unvisited_sitesAt .instanceDelta rfl _ _

theorem unvisited_invariant (entities : List Contract) (inv : InvariantDecl) :
    Unvisited (InvariantDecl.sites entities inv) := by
  have hsteps := unvisited_stepSites .invariantStep .invariantPathIndex rfl rfl
  rw [InvariantDecl.sites]
  refine unvisited_append (unvisited_append (unvisited_append (unvisited_append (unvisited_append
    (unvisited_append (unvisited_append (unvisited_append ?_ ?_) ?_) ?_) ?_) ?_) ?_) ?_) ?_
  · exact unvisited_flatMap fun _ => unvisited_sitesAt .invariantInit rfl _ _
  · exact unvisited_sitesAt .invariantSender rfl _ _
  · exact unvisited_sitesAt .invariantDeploy rfl _ _
  · exact unvisited_sitesAt .invariantContext rfl _ _
  · exact unvisited_flatMap fun _ => hsteps _ _
  · exact unvisited_sitesAt .invariantCheck rfl _ _
  · exact unvisited_sitesAt .invariantTrack rfl _ _
  · exact unvisited_flatMap fun _ =>
      unvisited_append (hsteps _ _) (unvisited_sitesAt .invariantReturn rfl _ _)
  · exact unvisited_sitesAt .excludedSender rfl _ _

theorem invariantScope_rewrite (entities : List Contract) (inv : InvariantDecl) :
    invariantScope (entities.map (rewriteEntity tables)) inv = invariantScope entities inv := by
  funext params
  simp only [invariantScope, testScope_rewrite]

/-- The sites of the program with its entities rewritten. -/
theorem sites_rewritten (p : Program) :
    Program.sites { p with entities := p.entities.map (rewriteEntity tables) } =
      p.sites.map (Site.rewritten tables) := by
  have htest : TestDecl.sites (p.entities.map (rewriteEntity tables)) =
      TestDecl.sites p.entities := by
    funext params test
    simp only [TestDecl.sites, testScope_rewrite]
  have hprop : PropertyDecl.sites (p.entities.map (rewriteEntity tables)) =
      PropertyDecl.sites p.entities := by
    funext prop
    simp only [PropertyDecl.sites, testScope_rewrite]
  have hinv : InvariantDecl.sites (p.entities.map (rewriteEntity tables)) =
      InvariantDecl.sites p.entities := by
    funext inv
    simp only [InvariantDecl.sites, invariantScope_rewrite, testScope_rewrite]
  simp only [Program.sites, htest, hprop, hinv, List.map_append, List.flatMap_map, List.map_flatMap,
    contractSites_rewrite]
  simp only [(unvisited_pureFn .pureFnBody rfl _).rewritten tables,
    (unvisited_library _).rewritten tables, (unvisited_test _ _ _).rewritten tables,
    (unvisited_property _ _).rewritten tables, (unvisited_invariant _ _).rewritten tables]

/-- The pass changes neither what is attached nor the types it looks up. -/
theorem sugar_applyUsingRewrites (p : Program) (scope : Scope) (e : Expr) :
    Sugar (applyUsingRewrites p) scope e ↔ Sugar p scope e := by
  rw [applyUsingRewrites]
  split <;> rfl

/-- Without attached methods there is no sugar. -/
theorem sugarFree_of_byMethod_nil (h : byMethod p = []) (e : Expr) : SugarFree p scope e := by
  rintro s - ⟨recv, method, args, ty, -, -, hattached⟩
  have hany := byMethod_any.mpr hattached
  simp [h] at hany

/-- **Which sugar the pass leaves**: that at the places it passes over. -/
theorem sugar_left_iff (p : Program) :
    (∀ s ∈ (applyUsingRewrites p).sites, SugarFree (applyUsingRewrites p) s.scope s.expr) ↔
      ∀ s ∈ p.sites, s.kind.rewritten = false → SugarFree p s.scope s.expr := by
  have hsame : ∀ scope e, SugarFree (applyUsingRewrites p) scope e ↔ SugarFree p scope e := by
    intro scope e
    simp only [SugarFree, Layered.Everywhere, sugar_applyUsingRewrites]
  simp only [hsame]
  by_cases hnone : byMethod p = []
  · exact iff_of_true (fun s _ => sugarFree_of_byMethod_nil hnone s.expr)
      (fun s _ _ => sugarFree_of_byMethod_nil hnone s.expr)
  · have husing : p.usingDecls ≠ [] := by
      intro h
      exact hnone (by simp [byMethod, h])
    have happly : applyUsingRewrites p =
        { p with entities := p.entities.map (rewriteEntity (usingTables p)) } := by
      simp [applyUsingRewrites, hnone, husing]
    rw [happly, sites_rewritten, List.forall_mem_map]
    refine forall₂_congr fun s _ => ?_
    cases hkind : s.kind.rewritten with
    | true => simp [Site.mapBy, hkind, sugarFree_rewriteExpr]
    | false => simp [Site.mapBy, hkind]

/-- `using { double } for u64` and a pure function that calls `x.double()`. -/
def doubling : Program :=
  { Program.empty with
    usingDecls := [⟨.functions ["double"], .simple "u64"⟩]
    pureFns := [
      ⟨"double", [⟨"x", .simple "u64"⟩], .simple "u64",
        .binOp (.ident "x") .add (.ident "x")⟩,
      ⟨"quadruple", [⟨"x", .simple "u64"⟩], .simple "u64",
        .methodCall (.methodCall (.ident "x") "double" []) "double" []⟩] }

/-- The body of a pure function keeps its sugar. -/
theorem sugar_left :
    ¬ ∀ p : Program, ∀ s ∈ (applyUsingRewrites p).sites,
      SugarFree (applyUsingRewrites p) s.scope s.expr := by
  intro hall
  have hsite : (applyUsingRewrites doubling).sites[1]? =
      some ⟨.pureFnBody, ⟨[], [⟨"x", .simple "u64"⟩]⟩,
        .methodCall (.methodCall (.ident "x") "double" []) "double" []⟩ := rfl
  have hfree := hall doubling _ (List.mem_of_getElem? hsite)
  have hinner : Expr.methodCall (.ident "x") "double" [] ∈
      exprTree.children (.methodCall (.methodCall (.ident "x") "double" []) "double" []) :=
    List.mem_cons_self
  refine (hfree.child hinner).root ⟨.ident "x", "double", [], .simple "u64", rfl, rfl, ?_⟩
  exact ⟨_, List.mem_cons_self, ⟨List.mem_cons_self, _, List.mem_cons_self, rfl⟩, rfl⟩

end CambrianLang.Authored
