/-
  **Declaration rules of the EVM target**: typed sends to undeclared entities (E22),
  arity of `from` clauses (V33), `receive` and `fallback` routes (V40, V41) and the
  init route under factory deployment (V62, V63).
-/
import CambrianLang.Ast.Entity
import CambrianLang.Validate.Diagnostic

namespace CambrianLang.Validate

open Ast Traversal

/-- `walk_expr_subtree`: an expression and all its subexpressions. -/
def walkExprSubtree : Walker Expr Expr where
  own e := [e]
  visited := Expr.children
  rank := Expr.rank
  rank_lt := rank_child_lt

/-- An action and all the actions nested in it. -/
def walkActionSubtree : Walker RouteAction RouteAction where
  own a := [a]
  visited := RouteAction.children
  rank := RouteAction.rank
  rank_lt := rank_nested_lt

/-! ### The entity an address stands for -/

/-- The first character is upper case. -/
def startsUpper (name : String) : Bool :=
  match name.toList with
  | c :: _ => c.isUpper
  | [] => false

/-- `Entity.address(..)`. -/
def extractEntityFromAddrCall : Expr → Option String
  | .methodCall (.ident name) "address" _ => if startsUpper name then some name else none
  | _ => none

/-- The entity of the typed address a macro returns. -/
def macroEntity (entity : Entity) : Expr → Option String
  | .macroRef macroName _ =>
      match entity.macros.find? (·.name == macroName) with
      | some mac =>
          match mac.returnType with
          | .typedAddress entityName => some entityName
          | _ => none
      | none => none
  | _ => none

/-- `extract_entity_from_addr_or_macro`. -/
def extractEntityFromAddrOrMacro (entity : Entity) (e : Expr) : Option String :=
  (extractEntityFromAddrCall e).or (macroEntity entity e)

/-- `msg::sender`. -/
def isMsgSender : Expr → Bool
  | .msgField f => f == "sender"
  | _ => false

/-- `extract_entity_from_where_condition`. -/
def extractEntityFromWhereCondition (entity : Entity) : Expr → Option String
  | .binOp lhs .eq rhs =>
      if isMsgSender lhs then extractEntityFromAddrOrMacro entity rhs
      else if isMsgSender rhs then extractEntityFromAddrOrMacro entity lhs
      else none
  | .binOp lhs .and rhs | .binOp lhs .or rhs =>
      (extractEntityFromWhereCondition entity lhs).or (extractEntityFromWhereCondition entity rhs)
  | _ => none

/-- `addressOf(Entity.state(..))`. -/
def addressOfState : Expr → Option String
  | .fnCall "addressOf" [.methodCall (.ident name) "state" _] =>
      if startsUpper name then some name else none
  | _ => none

/-- `address_of Entity(..)`. -/
def addressOfKeyword : Expr → Option String
  | .addressOf entityName _ _ => if startsUpper entityName then some entityName else none
  | _ => none

/-- The entity of a typed address. -/
def typedAddressEntity : Ty → Option String
  | .typedAddress entityName => some entityName
  | _ => none

/-- A member or parameter of typed-address type. -/
def identEntity (entity : Entity) (route : Route) : Expr → Option String
  | .ident varName =>
      ((entity.members.find? (·.name == varName)).bind fun m => typedAddressEntity m.ty).or
        ((route.params.find? (·.name == varName)).bind fun p => typedAddressEntity p.ty)
  | _ => none

/-- `msg::sender`, where a route where compares it with an entity's address. -/
def senderEntity (entity : Entity) (route : Route) (dest : Expr) : Option String :=
  if isMsgSender dest then
    route.whereClauses.findSome? fun wc => extractEntityFromWhereCondition entity wc.condition
  else none

/-- `m.unwrap()` on a member of optional typed-address type. -/
def unwrapEntity (entity : Entity) : Expr → Option String
  | .methodCall (.ident varName) "unwrap" _ =>
      match (entity.members.find? (·.name == varName)).map Member.ty with
      | some (.generic "Option" [ty]) => typedAddressEntity ty
      | _ => none
  | _ => none

/-- `resolve_dest_entity`. -/
def resolveDestEntity (dest : Expr) (entity : Entity) (route : Route) : Option String :=
  (extractEntityFromAddrCall dest).or <| (addressOfState dest).or <| (addressOfKeyword dest).or <|
    (identEntity entity route dest).or <| (senderEntity entity route dest).or <|
    (macroEntity entity dest).or (unwrapEntity entity dest)

/-! ### E22 -/

/-- What `check_evm_extern_action` reports for an action itself. -/
def checkEvmExternAction (entity : Entity) (route : Route) (known : List String) :
    RouteAction → List Diagnostic
  | .send (some msg) _ dest _ =>
      match resolveDestEntity dest entity route with
      | some target =>
          if known.contains target then []
          else
            [.error "E22" ("entity '" ++ entity.name ++ "' route '" ++ route.name ++
              "': named send '" ++ msg ++ "' targets undeclared external entity '" ++ target ++
              "'. Declare via `extern entity " ++ target ++ " \x7b route " ++ msg ++
              "(...); \x7d` or include the entity in the project.")]
      | none => []
  | .varCall _ message _ dest _ =>
      match resolveDestEntity dest entity route with
      | some target =>
          if known.contains target then []
          else
            [.error "E22" ("entity '" ++ entity.name ++ "' route '" ++ route.name ++
              "': var call '" ++ message ++ "' targets undeclared external entity '" ++ target ++
              "'. Declare via `extern entity " ++ target ++ " \x7b route " ++ message ++
              "(...) -> T; \x7d` or include the entity in the project.")]
      | none => []
  | _ => []

/-- `check_evm_extern_entity_refs`. -/
def checkEvmExternEntityRefs (program : Program) : List Diagnostic :=
  let known := program.entities.map Entity.name ++ program.externEntities.map ExternEntity.name
  program.entities.flatMap fun entity => entity.routes.flatMap fun route =>
    (route.body.allActions.flatMap walkActionSubtree.walk).flatMap
      (checkEvmExternAction entity route known)

/-! ### V33 -/

/-- `check_evm_from_clause_arity`, for one clause. -/
def checkFromClauseArity (program : Program) (deterministic : Bool) (entity : Entity)
    (route : Route) (fc : FromClause) : List Diagnostic :=
  if fc.kind ≠ .entity then []
  else
    match program.entities.find? (·.name == fc.entityName) with
    | none => []
    | some target =>
        let head := "entity '" ++ entity.name ++ "' route '" ++ route.name ++ "': `from " ++
          fc.entityName ++ "(" ++ (if fc.args.isEmpty then "" else "...") ++ ")` has " ++
          toString fc.args.length ++ " argument(s); "
        if deterministic then
          let identityCount := (target.members.filter (·.isIdentity)).length
          if fc.args.length ≠ identityCount then
            [.error "V33" (head ++ "deterministic-addresses mode requires exactly " ++
              toString identityCount ++ " (one per identity member of '" ++ fc.entityName ++ "').")]
          else []
        else if fc.args.length ≠ 1 then
          [.error "V33" (head ++ "without `deterministic_addresses: true` the EVM lowering only " ++
            "supports a single address argument. Set `deterministic_addresses: true` in project.yaml " ++
            "to use multi-arg from-clauses.")]
        else []

/-- `check_evm_from_clause_arity`. -/
def checkEvmFromClauseArity (program : Program) (deterministic : Bool) : List Diagnostic :=
  program.entities.flatMap fun entity => entity.routes.flatMap fun route =>
    route.fromClauses.flatMap (checkFromClauseArity program deterministic entity route)

/-! ### V40, V41 -/

/-- The V40 checks of one `receive` or `fallback` route. -/
def checkReceiveRoute (entity : Entity) (route : Route) : List Diagnostic :=
  let head := "entity '" ++ entity.name ++ "': '" ++ route.name ++ "' route "
  (if !route.params.isEmpty then [.error "V40" (head ++ "must take no parameters")] else []) ++
  (if route.returnType.isSome then [.error "V40" (head ++ "must not declare a return type")] else []) ++
  (if route.isView || route.isPure then [.error "V40" (head ++ "cannot be view or pure")] else []) ++
  (if route.name = "receive" ∧ !route.isAccept then
    [.error "V40" ("entity '" ++ entity.name ++
      "': 'receive' route must be declared with the `accept` modifier")]
  else [])

/-- The V41 check for a route name. -/
def checkDuplicateRoute (entity : Entity) (name : String) : List Diagnostic :=
  let count := (entity.routes.filter (·.name == name)).length
  if 1 < count then
    [.error "V41" ("entity '" ++ entity.name ++ "': duplicate '" ++ name ++ "' route (" ++
      toString count ++ " declared); only one allowed")]
  else []

/-- `check_receive_fallback`. -/
def checkReceiveFallback (program : Program) : List Diagnostic :=
  program.entities.flatMap fun entity =>
    ((entity.routes.filter fun r => r.name == "receive" || r.name == "fallback").flatMap
      (checkReceiveRoute entity)) ++
    checkDuplicateRoute entity "receive" ++ checkDuplicateRoute entity "fallback"

/-! ### V62, V63 -/

/-- `check_factory_only_required_on_init`. -/
def checkFactoryOnlyRequiredOnInit (entity : Entity) : List Diagnostic :=
  match entity.routes.find? isInitRoute with
  | some route =>
      if route.factoryOnly then []
      else
        [.error "V63" ("entity '" ++ entity.name ++ "' route '" ++ route.name ++
          "': `#[factory_only]` is required on the init/constructor route when " ++
          "`deterministic_addresses: true`")]
  | none => []

/-- `expr_references_msg_sender`. -/
def exprReferencesMsgSender (e : Expr) : Bool := (walkExprSubtree.walk e).any isMsgSender

/-- `route_action_references_msg_sender`. -/
def routeActionReferencesMsgSender (a : RouteAction) : Bool :=
  (walkActionSubtree.walk a).any fun b => b.exprs.any exprReferencesMsgSender

/-- `check_init_route_msg_sender_under_factory`. -/
def checkInitRouteMsgSenderUnderFactory (entity : Entity) : List Diagnostic :=
  match entity.routes.find? isInitRoute with
  | some route =>
      if route.body.allActions.any routeActionReferencesMsgSender ||
          entity.members.any (fun m => m.transforms.any fun t =>
            t.routeName == route.name && exprReferencesMsgSender t.body) then
        [.error "V62" ("entity '" ++ entity.name ++ "' route '" ++ route.name ++
          "': `msg::sender` in the init/constructor route is the factory address under " ++
          "`deterministic_addresses` (CREATE2), not the external deploy caller — declare an explicit " ++
          "constructor parameter and pass it via `factory.deploy*(...)`")]
      else []
  | none => []

end CambrianLang.Validate
