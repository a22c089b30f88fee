/-
  **Types the EVM target would erase** (E18-E21, `validate/mod.rs`): tuples outside
  return positions, unknown generics, unresolved names and casts without a
  Solidity counterpart; and the shapes of `HashMap` member transforms that it turns
  into storage writes (E17).
-/
import CambrianLang.Ast.Entity
import CambrianLang.Validate.Diagnostic

namespace CambrianLang.Validate

open Ast Traversal

/-- `PRIMITIVE_SOL_TYPE_NAMES`. -/
def primitiveSolTypeNames : List String :=
  ["u8", "u16", "u32", "u64", "u128", "U256", "usize", "i8", "i16", "i32", "i64", "i128",
    "uint8", "uint16", "uint32", "uint64", "uint128", "uint256", "int8", "int16", "int32", "int64",
    "int128", "int256", "bytes32", "bytes4", "bool", "String", "CamData", "bytes", "address", "pubkey"]

/-- `ALLOWED_CAST_SOL_TYPES`. -/
def allowedCastSolTypes : List String :=
  ["uint256", "int256", "bool", "address", "bytes32", "bytes4"]

/-- `is_known_user_type`. -/
def isKnownUserType (name : String) (program : Program) (entity : Option Entity) : Bool :=
  primitiveSolTypeNames.contains name ||
  program.records.any (·.name == name) ||
  program.enums.any (·.name == name) ||
  program.typeAliases.any (·.name == name) ||
  (match entity with
    | some entity =>
        entity.records.any (·.name == name) || entity.enums.any (·.name == name) ||
          entity.typeAliases.any (·.name == name)
    | none => false) ||
  program.entities.any (·.name == name)

/-- `TypePos`. -/
inductive TypePos where
  | returnType
  | storage
deriving DecidableEq

mutual
/-- `check_evm_compat_type_pos`. -/
def checkEvmCompatTypePos (site : String) (program : Program) (entity : Option Entity) :
    Ty → TypePos → List Diagnostic
  | .tuple items, pos =>
      (if pos = .storage then
        [.error "E18" (site ++ ": tuple types are not supported on the EVM target outside of " ++
          "multi-return position (silent erasure to `bytes`). Define a `record` instead so the field " ++
          "types survive in the emitted Solidity struct.")]
      else []) ++ checkEvmCompatTypes site program entity items
  | .generic name params, _ =>
      if name = "Vec" ∨ name = "HashMap" ∨ name = "Option" then
        checkEvmCompatTypes site program entity params
      else
        [.error "E19" (site ++ ": generic type `" ++ name ++ "<...>` has no EVM lowering (only " ++
          "`Vec<T>` / `HashMap<K, V>` / `Option<T>` are supported; everything else silently erases " ++
          "to `bytes`).")]
  | .simple name, _ =>
      if isKnownUserType name program entity then []
      else
        [.error "E20" (site ++ ": type `" ++ name ++ "` does not resolve to a primitive, record, enum, " ++
          "or type alias visible from the EVM target (would silently erase to `uint256`).")]
  | .typedAddress _, _ => []
def checkEvmCompatTypes (site : String) (program : Program) (entity : Option Entity) :
    List Ty → List Diagnostic
  | [] => []
  | ty :: tys => checkEvmCompatTypePos site program entity ty .storage ++
      checkEvmCompatTypes site program entity tys
end

/-- `check_evm_compat_type`. -/
def checkEvmCompatType (ty : Ty) (site : String) (program : Program) (entity : Option Entity) :
    List Diagnostic :=
  checkEvmCompatTypePos site program entity ty .storage

/-- `resolve_alias_for_validate`.  The source follows aliases until the name is no
    alias; `fuel` bounds the steps, and acyclic aliases need at most one for each
    declaration. -/
def resolveAliasForValidate (program : Program) (entity : Option Entity) : Nat → Ty → Ty
  | 0, ty => ty
  | fuel + 1, .simple name =>
      match (entity.map Entity.typeAliases).getD [] |>.find? (·.name == name) with
      | some a => resolveAliasForValidate program entity fuel a.ty
      | none =>
          match program.typeAliases.find? (·.name == name) with
          | some a => resolveAliasForValidate program entity fuel a.ty
          | none => .simple name
  | _ + 1, ty => ty

/-- The number of alias declarations in scope. -/
def aliasCount (program : Program) (entity : Option Entity) : Nat :=
  ((entity.map Entity.typeAliases).getD []).length + program.typeAliases.length

mutual
/-- `pretty_type`. -/
def prettyType : Ty → String
  | .simple s => s
  | .generic n ps => n ++ "<" ++ ", ".intercalate (prettyTypes ps) ++ ">"
  | .tuple ts => "(" ++ ", ".intercalate (prettyTypes ts) ++ ")"
  | .typedAddress n => "address(" ++ n ++ ")"
def prettyTypes : List Ty → List String
  | [] => []
  | ty :: tys => prettyType ty :: prettyTypes tys
end

/-- The Solidity type a cast target lowers to in `check_evm_compat_cast_target`. -/
def castSolType : Ty → String
  | .simple name =>
      if ["u8", "u16", "u32", "u64", "u128", "usize", "U256", "uint8", "uint16", "uint32", "uint64",
          "uint128", "uint256"].contains name then "uint256"
      else if ["i8", "i16", "i32", "i64", "i128", "int8", "int16", "int32", "int64", "int128",
          "int256"].contains name then "int256"
      else if name = "bool" then "bool"
      else if name = "address" then "address"
      else if name = "pubkey" ∨ name = "bytes32" then "bytes32"
      else if name = "bytes4" then "bytes4"
      else "_other_"
  | _ => "_other_"

/-- `check_evm_compat_cast_target`. -/
def checkEvmCompatCastTarget (ty : Ty) (site : String) (program : Program)
    (entity : Option Entity) : List Diagnostic :=
  let resolved := resolveAliasForValidate program entity (aliasCount program entity + 1) ty
  (if allowedCastSolTypes.contains (castSolType resolved) then []
  else
    [.error "E21" (site ++ ": `as " ++ prettyType ty ++ "` cast is not supported on EVM (silent " ++
      "identity drop). Cast targets must be one of: u8/u16/u32/u64/u128/U256, i8/i16/i32/i64/i128, " ++
      "bool, address, pubkey.")]) ++
  checkEvmCompatType ty site program entity

/-- What `check_evm_compat_expr_types` reports for an expression itself.  It
    descends into every subexpression; type parameters of a call are reported
    before its arguments here and after them in the source. -/
def checkOwnTypes (site : String) (program : Program) (entity : Option Entity) :
    Expr → List Diagnostic
  | .cast _ ty => checkEvmCompatCastTarget ty site program entity
  | .namespacedCall _ _ _ typeParams =>
      typeParams.flatMap fun t => checkEvmCompatType t site program entity
  | .encode targetType _ => checkEvmCompatType targetType site program entity
  | _ => []

/-- `check_evm_compat_expr_types`. -/
def checkEvmCompatExprTypes (site : String) (program : Program) (entity : Option Entity) :
    Walker Expr Diagnostic where
  own := checkOwnTypes site program entity
  visited := Expr.children
  rank := Expr.rank
  rank_lt := rank_child_lt

/-- `check_evm_compat_action_types`. -/
def checkEvmCompatActionTypes (site : String) (program : Program) (entity : Option Entity) :
    Walker RouteAction Diagnostic where
  own a := a.exprs.flatMap (checkEvmCompatExprTypes site program entity).walk
  visited := RouteAction.children
  rank := RouteAction.rank
  rank_lt := rank_nested_lt

/-- The types of a list of records. -/
def checkRecordTypes (prefix_ : String) (program : Program) (entity : Option Entity)
    (records : List Record) : List Diagnostic :=
  records.flatMap fun rec_ => rec_.fields.flatMap fun f =>
    checkEvmCompatType f.ty (prefix_ ++ "record '" ++ rec_.name ++ "' field '" ++ f.name ++ "'")
      program entity

/-- The payload types of a list of enums. -/
def checkEnumTypes (prefix_ : String) (program : Program) (entity : Option Entity)
    (enums : List EnumDecl) : List Diagnostic :=
  enums.flatMap fun e => e.variants.flatMap fun v => v.fields.zipIdx.flatMap fun fty =>
    checkEvmCompatType fty.1 (prefix_ ++ "enum '" ++ e.name ++ "' variant '" ++ v.name ++
      "' position " ++ toString fty.2) program entity

/-- The targets of a list of aliases. -/
def checkAliasTypes (prefix_ : String) (program : Program) (entity : Option Entity)
    (aliases : List TypeAlias) : List Diagnostic :=
  aliases.flatMap fun ta =>
    checkEvmCompatType ta.ty (prefix_ ++ "type alias '" ++ ta.name ++ "'") program entity

/-- The part of `check_evm_compat_program_types` about one pure function. -/
def checkPureFnTypes (program : Program) (pf : PureFn) : List Diagnostic :=
  (pf.params.flatMap fun p =>
    checkEvmCompatType p.ty ("pure fn '" ++ pf.name ++ "' param '" ++ p.name ++ "'") program none) ++
  checkEvmCompatTypePos ("pure fn '" ++ pf.name ++ "' return type") program none pf.returnType
    .returnType ++
  (checkEvmCompatExprTypes ("pure fn '" ++ pf.name ++ "' body") program none).walk pf.body

/-- The part about one member. -/
def checkMemberTypes (program : Program) (entity : Entity) (member : Member) : List Diagnostic :=
  let site := "entity '" ++ entity.name ++ "' member '" ++ member.name ++ "'"
  checkEvmCompatType member.ty site program (some entity) ++
  (member.defaultValue.toList.flatMap (checkEvmCompatExprTypes site program (some entity)).walk) ++
  member.transforms.flatMap fun t =>
    (checkEvmCompatExprTypes (site ++ " transform `in " ++ t.routeName ++ "(..)`") program
      (some entity)).walk t.body

/-- The part about one route. -/
def checkRouteTypes (program : Program) (entity : Entity) (route : Route) : List Diagnostic :=
  let site := "entity '" ++ entity.name ++ "' route '" ++ route.name ++ "'"
  (route.params.flatMap fun p =>
    checkEvmCompatType p.ty (site ++ " param '" ++ p.name ++ "'") program (some entity)) ++
  (route.returnType.toList.flatMap fun rt =>
    checkEvmCompatTypePos (site ++ " return type") program (some entity) rt .returnType) ++
  (route.body.allActions.flatMap
    (checkEvmCompatActionTypes (site ++ " body") program (some entity)).walk) ++
  route.whereClauses.flatMap fun w =>
    (checkEvmCompatExprTypes (site ++ " body") program (some entity)).walk w.condition

/-- The part about one macro. -/
def checkMacroTypes (program : Program) (entity : Entity) (mac : Macro) : List Diagnostic :=
  let site := "entity '" ++ entity.name ++ "' macro '" ++ mac.name ++ "'"
  (mac.params.flatMap fun p =>
    checkEvmCompatType p.ty (site ++ " param '" ++ p.name ++ "'") program (some entity)) ++
  checkEvmCompatTypePos (site ++ " return type") program (some entity) mac.returnType .returnType ++
  (checkEvmCompatExprTypes (site ++ " body") program (some entity)).walk mac.body

/-- The part about one entity. -/
def checkEntityTypes (program : Program) (entity : Entity) : List Diagnostic :=
  let prefix_ := "entity '" ++ entity.name ++ "' "
  checkRecordTypes prefix_ program (some entity) entity.records ++
  checkEnumTypes prefix_ program (some entity) entity.enums ++
  checkAliasTypes prefix_ program (some entity) entity.typeAliases ++
  entity.members.flatMap (checkMemberTypes program entity) ++
  entity.routes.flatMap (checkRouteTypes program entity) ++
  entity.macros.flatMap (checkMacroTypes program entity)

/-- `check_evm_compat_program_types`. -/
def checkEvmCompatProgramTypes (program : Program) : List Diagnostic :=
  checkRecordTypes "" program none program.records ++
  checkEnumTypes "" program none program.enums ++
  checkAliasTypes "" program none program.typeAliases ++
  program.pureFns.flatMap (checkPureFnTypes program) ++
  program.entities.flatMap (checkEntityTypes program)

/-! ### `HashMap` transforms -/

mutual
/-- `is_recognised_hashmap_transform`. -/
def isRecognisedHashmapTransform (memberName : String) : Expr → Bool
  | .methodCall _ m _ => m == "insert" || m == "update" || m == "remove"
  | .ifE _ thenB elseB =>
      isRecognisedHashmapTransform memberName thenB &&
        (match elseB with
          | some e => isRecognisedHashmapTransform memberName e
          | none => true)
  | .block items => areRecognisedHashmapTransforms memberName items
  | .ident name => name == memberName
  | .emptyCollection => true
  | .enumVariantWithData en var _ => en == "HashMap" && var == "new"
  | .letE _ _ body => isRecognisedHashmapTransform memberName body
  | _ => false
def areRecognisedHashmapTransforms (memberName : String) : List Expr → Bool
  | [] => true
  | e :: es => isRecognisedHashmapTransform memberName e &&
      areRecognisedHashmapTransforms memberName es
end

/-- The type of a `HashMap` member. -/
def isHashMap : Ty → Bool
  | .generic name _ => name == "HashMap"
  | _ => false

/-- `check_evm_compat_member_transforms`. -/
def checkEvmCompatMemberTransforms (entity : Entity) : List Diagnostic :=
  (entity.members.filter fun m => isHashMap m.ty).flatMap fun member =>
    member.transforms.flatMap fun t =>
      if isRecognisedHashmapTransform member.name t.body then []
      else
        [.error "E17" ("entity '" ++ entity.name ++ "' member '" ++ member.name ++
          "' transform `in " ++ t.routeName ++ "(..)`: HashMap member transform body shape is not " ++
          "recognised by the EVM backend (would emit a no-op). Use `m.insert(k, v)` / " ++
          "`m.update(k, v)` / `m.remove(k)` (optionally wrapped in `if`, `block`, or `let`) instead.")]

end CambrianLang.Validate
