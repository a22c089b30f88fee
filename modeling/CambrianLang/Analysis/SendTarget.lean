/-
  **What a send is addressed to**, as three parts of the transpiler work it out
  (`analysis/send_target.rs`, `codegen/types.rs`, `validate/entity.rs`).

  The analysis classifies a destination, the EVM back end and the validator each look for
  the entity it stands for.
-/
import CambrianLang.Validate.EvmRules

namespace CambrianLang.Analysis

open Ast Validate

/-! ### Classification -/

/-- `SendTarget`. -/
inductive SendTarget where
  | sameEntity (idArgs : List Expr)
  | crossEntity (entity : String) (idArgs : List Expr)
  | dynamicTyped (entity destIdent : String)
  | dynamicUntyped (destIdent : String)
  | externEntity (entity : String)
  | raw

/-- `resolve_entity_address`. -/
def resolveEntityAddress (program : Program) (dest : Expr) : Option (String × List Expr) :=
  let inProgram (name : String) := program.entities.any (·.name == name)
  match dest with
  | .methodCall (.ident name) "address" args => if inProgram name then some (name, args) else none
  | .fieldAccess (.ident name) "address" => if inProgram name then some (name, []) else none
  | .fnCall "addressOf" [.methodCall (.ident name) "state" args] =>
      if inProgram name then some (name, args) else none
  | .addressOf name args _ => if inProgram name then some (name, args) else none
  | _ => none

/-- `ident_type`: parameters come before members. -/
def identType (name : String) (entity : Entity) (route : Route) : Option Ty :=
  ((route.params.find? (·.name == name)).map Param.ty).or
    ((entity.members.find? (·.name == name)).map Member.ty)

/-- What the type of a name makes of it as a destination. -/
def classifyIdent (program : Program) (name : String) : Option Ty → SendTarget
  | some (.typedAddress ent) =>
      if program.entities.any (·.name == ent) then .dynamicTyped ent name
      else if program.externEntities.any (·.name == ent) then .externEntity ent
      else .raw
  | some (.simple s) => if s == "address" then .dynamicUntyped name else .raw
  | _ => .raw

/-- `classify_dest`. -/
def classifyDest (dest : Expr) (selfEntity : Entity) (route : Route) (program : Program) : SendTarget :=
  match resolveEntityAddress program dest with
  | some (ent, idArgs) => if ent == selfEntity.name then .sameEntity idArgs else .crossEntity ent idArgs
  | none =>
      match dest with
      | .ident name => classifyIdent program name (identType name selfEntity route)
      | _ => .raw

/-- The extern entities with a route of the name. -/
def externsWith (program : Program) (message : String) : List ExternEntity :=
  program.externEntities.filter fun ext => ext.routes.any (·.name == message)

/-- Source-level `let`s by name; the last one comes first. -/
abbrev LetEnv := List (String × Expr)

/-- The destination behind a `let`. -/
def aliased (letEnv : LetEnv) : Expr → Expr
  | .ident name => (letEnv.lookup name).getD (.ident name)
  | dest => dest

/-- `classify_message_dest`. -/
def classifyMessageDest (dest : Expr) (message : String) (selfEntity : Entity) (route : Route)
    (program : Program) (letEnv : LetEnv) : SendTarget :=
  match classifyDest (aliased letEnv dest) selfEntity route program with
  | .dynamicUntyped x =>
      match externsWith program message with
      | [ext] => .externEntity ext.name
      | _ => .dynamicUntyped x
  | .raw =>
      match externsWith program message with
      | [ext] => .externEntity ext.name
      | _ => .raw
  | target => target

/-- `send_target_entity_name`. -/
def sendTargetEntityName (selfEntity : String) : SendTarget → Option String
  | .sameEntity _ => some selfEntity
  | .crossEntity entity _ | .dynamicTyped entity _ | .externEntity entity => some entity
  | .dynamicUntyped _ | .raw => none

/-! ### The EVM back end -/

/-- `extract_entity_from_method_call`. -/
def extractEntityFromMethodCall (dest : Expr) : Option String :=
  (extractEntityFromAddrCall dest).or <| (addressOfState dest).or (addressOfKeyword dest)

/-- The back end's `extract_entity_from_addr_or_macro`. -/
def extractEntityFromAddressOrMacro (entity : Entity) (e : Expr) : Option String :=
  (extractEntityFromMethodCall e).or (macroEntity entity e)

/-- `extract_sender_entity_from_expr`. -/
def extractSenderEntityFromExpr (entity : Entity) : Expr → Option String
  | .binOp lhs .eq rhs =>
      if isMsgSender lhs then extractEntityFromAddressOrMacro entity rhs
      else if isMsgSender rhs then extractEntityFromAddressOrMacro entity lhs
      else none
  | .binOp lhs .and rhs | .binOp lhs .or rhs =>
      (extractSenderEntityFromExpr entity lhs).or (extractSenderEntityFromExpr entity rhs)
  | _ => none

/-- `extract_sender_entity_from_where`. -/
def extractSenderEntityFromWhere (route : Route) (entity : Entity) : Option String :=
  route.whereClauses.findSome? fun wc => extractSenderEntityFromExpr entity wc.condition

/-- `resolve_target_entity`. -/
def resolveTargetEntity (dest : Expr) (entity : Entity) (route : Route) : Option String :=
  (extractEntityFromMethodCall dest).or <| (identEntity entity route dest).or <|
    (if isMsgSender dest then extractSenderEntityFromWhere route entity else none).or <|
    (macroEntity entity dest).or (unwrapEntity entity dest)

/-! ### The calls of a route -/

/-- A message with its destination, and the `let`s in front of it. -/
structure CallSite where
  letEnv : LetEnv
  message : String
  dest : Expr

def bindLet (letEnv : LetEnv) : RouteAction → LetEnv
  | .letA (.ident name) value => (name, value) :: letEnv
  | _ => letEnv

mutual
def sitesOf (letEnv : LetEnv) : RouteAction → List CallSite
  | .send (some message) _ dest _ => [⟨letEnv, message, dest⟩]
  | .varCall _ message _ dest _ => [⟨letEnv, message, dest⟩]
  | .conditional _ thenActions elseActions =>
      sitesOfAll letEnv thenActions ++ sitesOfAll letEnv elseActions
  | .forA _ _ body => sitesOfAll letEnv body
  | .rescue _ action => sitesOf letEnv action
  | _ => []
def sitesOfAll (letEnv : LetEnv) : List RouteAction → List CallSite
  | [] => []
  | a :: as => sitesOf letEnv a ++ sitesOfAll (bindLet letEnv a) as
end

/-- The messages that a route sends; each phase starts without `let`s (`lower_route`). -/
def callSites (route : Route) : List CallSite :=
  match route.body with
  | .unphased actions => sitesOfAll [] actions
  | .phased phases => phases.flatMap fun ph => sitesOfAll [] ph.actions
  | .mixed phases actions => (phases.flatMap fun ph => sitesOfAll [] ph.actions) ++ sitesOfAll [] actions

/-! ### V23, V24 -/

/-- The route that a name has on the target, with whether it returns a value; without a
    target of that name nothing is checked. -/
def targetRoute (program : Program) (target message : String) : Option (Option Bool × Bool) :=
  match program.entities.find? (·.name == target) with
  | some e => some ((e.routes.find? (·.name == message)).map (·.returnType.isSome), false)
  | none =>
      (program.externEntities.find? (·.name == target)).map fun ext =>
        ((ext.routes.find? (·.name == message)).map (·.returnType.isSome), true)

/-- What `check_typed_send_in_action` reports for an action itself. -/
def checkTypedSend (program : Program) (entity : Entity) (route : Route) :
    RouteAction → List Diagnostic
  | .send (some msg) _ dest _ =>
      match resolveDestEntity dest entity route with
      | none =>
          [.error "V23" ("Named message '" ++ msg ++ "' in " ++ entity.name ++ "." ++ route.name ++
            " sent to untyped address. Use Address<Entity> type on the destination variable, " ++
            "or only use plain transfers (~>) for untyped addresses.")]
      | some target =>
          match targetRoute program target msg with
          | some (none, isExtern) =>
              [.error "V23" ("Route '" ++ msg ++ "' not found on " ++
                (if isExtern then "extern " else "") ++ "entity '" ++ target ++ "' (referenced in " ++
                entity.name ++ "." ++ route.name ++ ").")]
          | _ => []
  | .varCall name message _ dest _ =>
      let place := entity.name ++ "." ++ route.name
      match resolveDestEntity dest entity route with
      | none =>
          [.error "V23" ("var call '" ++ name ++ "' in " ++ place ++ " targets untyped address. " ++
            "Use Address<Entity> type on the destination variable.")]
      | some target =>
          match targetRoute program target message with
          | some (none, isExtern) =>
              [.error "V23" ("Route '" ++ message ++ "' not found on " ++
                (if isExtern then "extern " else "") ++ "entity '" ++ target ++ "' (var call in " ++
                place ++ ").")]
          | some (some false, isExtern) =>
              [.error "V24" ("var call '" ++ name ++ "' in " ++ place ++ " targets route '" ++ message ++
                "' on " ++ (if isExtern then "extern entity " else "") ++ "'" ++ target ++
                "' which has no return type. Use a regular send action for void routes.")]
          | _ => []
  | _ => []

/-- `check_typed_send_destinations`. -/
def checkTypedSendDestinations (program : Program) (entity : Entity) : List Diagnostic :=
  entity.routes.flatMap fun route =>
    (route.body.allActions.flatMap walkActionSubtree.walk).flatMap (checkTypedSend program entity route)

/-- The checks of typed sends on the EVM target. -/
def checkTypedSends (program : Program) : List Diagnostic :=
  program.entities.flatMap (checkTypedSendDestinations program) ++ checkEvmExternEntityRefs program

end CambrianLang.Analysis
