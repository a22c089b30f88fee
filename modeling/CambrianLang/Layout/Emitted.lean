/-
  **The storage variables of an emitted contract** (`codegen/solidity/evm/entity.rs`,
  `core/types.rs`, `core/option.rs`) and the places the Solidity compiler gives them.

  A printed type is kept as a term instead of a text; `SolTy.text` is the text, which
  the printer itself looks at for identity members.  Whether a mapping member is
  iterated, and whether its inner maps are asked for keys, is a parameter.
-/
import CambrianLang.Analysis.Sidecars
import CambrianLang.Layout.Packing
import CambrianLang.Lib.WordPacking

namespace CambrianLang.Layout

open Ast Analysis WordPacking

/-! ### Printed types -/

/-- A Solidity type as the printer writes it.  `option inner` is the tagged union struct
`Option_<inner>`. -/
inductive SolTy where
  | value (name : String) (bytes : ℕ)
  | string
  | bytes
  | array (elem : SolTy)
  | mapping (key value : SolTy)
  | named (name : String)
  | option (inner : Ty)

/-- `option_type_ident`. -/
def optionTypeIdent : Ty → String
  | .simple name =>
      if name = "u8" then "uint8"
      else if name = "u16" then "uint16"
      else if name = "u32" then "uint32"
      else if name = "u64" then "uint64"
      else if name = "u128" then "uint128"
      else if name = "usize" || name = "U256" then "uint256"
      else if name = "i8" then "int8"
      else if name = "i16" then "int16"
      else if name = "i32" then "int32"
      else if name = "i64" then "int64"
      else if name = "i128" then "int128"
      else if name = "String" then "string"
      else if name = "CamData" then "bytes"
      else if name = "pubkey" then "bytes32"
      else name
  | .generic name params =>
      match params with
      | [p] =>
          if name = "Option" then "Option_" ++ optionTypeIdent p
          else if name = "Vec" then optionTypeIdent p ++ "_arr"
          else "bytes"
      | [k, v] =>
          if name = "HashMap" then "Map_" ++ optionTypeIdent k ++ "_" ++ optionTypeIdent v
          else "bytes"
      | _ => "bytes"
  | .tuple elems => "Tup_" ++ "_".intercalate (elems.map optionTypeIdent)
  | .typedAddress _ => "address"

/-- `option_struct_name`. -/
def optionStructName (inner : Ty) : String := "Option_" ++ optionTypeIdent inner

/-- The text of a printed type. -/
def SolTy.text : SolTy → String
  | .value name _ => name
  | .string => "string"
  | .bytes => "bytes"
  | .array elem => elem.text ++ "[]"
  | .mapping key val => "mapping(" ++ key.text ++ " => " ++ val.text ++ ")"
  | .named name => name
  | .option inner => optionStructName inner

/-- `sol_type` outside a parameter. -/
def solType : Ty → SolTy
  | .simple name =>
      if name = "u8" then .value "uint8" 1
      else if name = "u16" then .value "uint16" 2
      else if name = "u32" then .value "uint32" 4
      else if name = "u64" then .value "uint64" 8
      else if name = "u128" then .value "uint128" 16
      else if name = "usize" || name = "U256" then .value "uint256" 32
      else if name = "i8" then .value "int8" 1
      else if name = "i16" then .value "int16" 2
      else if name = "i32" then .value "int32" 4
      else if name = "i64" then .value "int64" 8
      else if name = "i128" then .value "int128" 16
      else if name = "bool" then .value "bool" 1
      else if name = "String" then .string
      else if name = "CamData" || name = "bytes" then .bytes
      else if name = "address" then .value "address" 20
      else if name = "pubkey" || name = "bytes32" then .value "bytes32" 32
      else if name = "bytes4" then .value "bytes4" 4
      else .value "uint256" 32
  | .generic name params =>
      match params with
      | [p] =>
          if name = "Vec" then .array (solType p)
          else if name = "Option" then .option p
          else .bytes
      | [k, v] => if name = "HashMap" then .mapping (solType k) (solType v) else .bytes
      | _ => .bytes
  | .tuple _ => .bytes
  | .typedAddress _ => .value "address" 20

section Printer

variable (program : Program)

/-- Names that print as themselves: records and enums of the entity or the program. -/
def isDeclaredType (entity : Entity) (name : String) : Bool :=
  entity.records.any (·.name == name) || program.records.any (·.name == name) ||
    (entity.enums.any (·.name == name) || program.enums.any (·.name == name))

/-- `sol_type_entity` outside a parameter. -/
def solTypeEntity (entity : Entity) : Ty → SolTy
  | .simple name => if isDeclaredType program entity name then .named name else solType (.simple name)
  | .generic name params =>
      match params with
      | [p] =>
          if name = "Vec" then
            match p with
            | .simple inner =>
                if isDeclaredType program entity inner then .array (.named inner)
                else solType (.generic name [p])
            | _ => solType (.generic name [p])
          else solType (.generic name [p])
      | [k, v] =>
          if name = "HashMap" then .mapping (solTypeEntity entity k) (solTypeEntity entity v)
          else solType (.generic name [k, v])
      | params => solType (.generic name params)
  | ty => solType ty

/-- `synthetic_entity`: the scope in which program-level records are printed. -/
def syntheticEntity (name : String) : Entity :=
  { name := name, records := [], enums := [], typeAliases := [], constants := [], macros := [],
    routes := [], members := [] }

/-! ### Printed declarations -/

inductive SolDecl where
  | struct (fields : List SolTy)
  | enum

/-- The struct of a record. -/
def recordStruct (entity : Entity) (rec : Record) : SolDecl :=
  .struct (rec.fields.map fun f => solTypeEntity program entity f.ty)

/-- `gen_enum_decl` and `gen_payload_enum_struct`: the tag, then the fields of every variant. -/
def genEnumDecl (decl : EnumDecl) : SolDecl :=
  if isPayloadEnum decl then
    .struct (.value (decl.name ++ "_Tag") 1 :: (variantFields decl).map solType)
  else .enum

/-- The type declarations that a contract sees. -/
structure SolTypes where
  contract : List (String × SolDecl)
  file : List (String × SolDecl)

def emittedTypes (entity : Entity) : SolTypes where
  contract :=
    entity.records.map (fun r => (r.name, recordStruct program entity r)) ++
      entity.enums.map fun e => (e.name, genEnumDecl e)
  file :=
    program.records.map (fun r => (r.name, recordStruct program (syntheticEntity "program") r)) ++
      program.enums.map fun e => (e.name, genEnumDecl e)

/-- What the printer asks about a mapping member beside `member_uses_exists`:
`member_inner_uses_exists` and `hashmap_member_is_iterated`. -/
structure Sidecars where
  innerUsesExists : String → Bool
  isIterated : String → Bool

/-- `member_has_exists_sidecar`. -/
def hasExistsSidecar (entity : Entity) (sidecars : Sidecars) (name : String) : Bool :=
  sidecars.isIterated name || memberUsesExists entity program name

/-- An identity member whose printed type cannot be `immutable` stays in storage. -/
def storedIdentity (ty : SolTy) : Bool :=
  "string".toList.isPrefixOf ty.text.toList || decide ("[]".toList <:+: ty.text.toList)

/-- The key type of the inner maps of a two-level mapping. -/
def innerKey : List Ty → Option Ty
  | [_, .generic inner [k, _]] => if inner = "HashMap" then some k else none
  | _ => none

/-- The sidecars behind a mapping with the type parameters `params`. -/
def declaredSidecars (entity : Entity) (sidecars : Sidecars) (name : String) (params : List Ty) :
    List (String × SolTy) :=
  match params with
  | [] => []
  | key :: _ =>
      (if hasExistsSidecar program entity sidecars name then
        [(name ++ "_exists", .mapping (solType key) (.value "bool" 1))] else []) ++
      (match innerKey params with
        | some inner =>
            if sidecars.innerUsesExists name then
              [(name ++ "_inner_exists",
                .mapping (solType key) (.mapping (solType inner) (.value "bool" 1)))] else []
        | none => []) ++
      (if sidecars.isIterated name then
        [(name ++ "_keys", .array (solType key)),
          (name ++ "_keys_index", .mapping (solType key) (.value "uint256" 32))] else [])

/-- The storage variables printed for one member. -/
def declaredMember (entity : Entity) (sidecars : Sidecars) (m : Member) : List (String × SolTy) :=
  let ty := solTypeEntity program entity m.ty
  if m.isIdentity then (if storedIdentity ty then [(m.name, ty)] else [])
  else match m.ty with
    | .generic name params =>
        (m.name, ty) ::
          if name = "HashMap" then declaredSidecars program entity sidecars m.name params else []
    | _ => [(m.name, ty)]

end Printer

/-- `find_init_route`. -/
def findInitRoute (entity : Entity) : Option Route :=
  (entity.routes.find? (·.isInit)).or (entity.routes.find? (·.name == "constructor"))

/-- `has_non_identity_init_params`. -/
def hasNonIdentityInitParams (entity : Entity) : Bool :=
  (findInitRoute entity).any fun r => !r.params.isEmpty

/-! ### The places of the Solidity compiler -/

inductive SolScope where
  | contract
  | file
deriving DecidableEq

/-- A name is looked up in the contract first; what is declared at file level only sees the file. -/
def SolTypes.resolve (types : SolTypes) : SolScope → String → Option (SolScope × SolDecl)
  | .contract, name =>
      ((types.contract.lookup name).map (SolScope.contract, ·)).or
        ((types.file.lookup name).map (SolScope.file, ·))
  | .file, name => (types.file.lookup name).map (SolScope.file, ·)

/-- What a variable takes: a room that is not looked into, or the slots of a struct whose values
are `width` bytes together. -/
inductive SolRoom where
  | plain (room : Room)
  | struct (slots width : ℕ)
deriving DecidableEq

namespace SolRoom

def room : SolRoom → Room
  | .plain room => room
  | .struct slots _ => .words slots

/-- The bytes of the variable in its slots. -/
def bytes (r : SolRoom) : ℕ := r.room.size 32

def structWidth : SolRoom → Option ℕ
  | .plain _ => none
  | .struct _ width => some width

/-- The bytes of all values in the variable. -/
def width (r : SolRoom) : ℕ := r.structWidth.getD r.bytes

end SolRoom

/-- A struct takes whole slots, its fields packed like variables. -/
def structRoom (fields : List SolRoom) : Option SolRoom :=
  if fields.isEmpty then none
  else some (.struct (wordsOf 32 (fields.map SolRoom.room)) (fields.map SolRoom.width).sum)

/-- The value types of Solidity that a name can stand for. -/
def elementaryBytes (name : String) : Option ℕ :=
  if name = "bool" then some 1
  else if name = "address" then some 20
  else (List.range 32).findSome? fun i =>
    if name = "uint" ++ toString (8 * (i + 1)) || name = "int" ++ toString (8 * (i + 1)) ||
        name = "bytes" ++ toString (i + 1) then some (i + 1) else none

/-- `payload_sol_ty`: the type of `some_0`. -/
def payloadSolTy : Ty → SolTy
  | .generic name params =>
      match params with
      | [p] =>
          if name = "Option" then .option p
          else if name = "Vec" then .array (payloadSolTy p)
          else .bytes
      | _ => .named (optionTypeIdent (.generic name params))
  | ty => .named (optionTypeIdent ty)

/-- A printed name that is not declared: an elementary type or nothing the compiler accepts. -/
def elementaryRoom (name : String) : Option SolRoom :=
  if name = "string" || name = "bytes" then some (.plain (.words 1))
  else (elementaryBytes name).map fun n => .plain (.part n)

/-- What a variable of a type takes in storage: value types are packed, everything else takes whole
slots.  `none` is a type the compiler rejects, or structs nested deeper than the fuel. -/
def solRoom (types : SolTypes) : ℕ → SolScope → SolTy → Option SolRoom
  | _, _, .value _ bytes => some (.plain (.part bytes))
  | _, _, .string => some (.plain (.words 1))
  | _, _, .bytes => some (.plain (.words 1))
  | _, _, .array _ => some (.plain (.words 1))
  | _, _, .mapping _ _ => some (.plain (.words 1))
  | 0, _, .named _ => none
  | 0, _, .option _ => none
  | fuel + 1, scope, .named name =>
      match types.resolve scope name with
      | some (_, .enum) => some (.plain (.part 1))
      | some (home, .struct fields) => (fields.mapM (solRoom types fuel home)).bind structRoom
      | none => elementaryRoom name
  | fuel + 1, _, .option inner =>
      (([.value (optionStructName inner ++ "_Tag") 1, payloadSolTy inner] : List SolTy).mapM
        (solRoom types fuel .file)).bind structRoom

/-- A storage variable of the contract. -/
structure Variable where
  name : String
  room : SolRoom
deriving DecidableEq

section Variables

variable (program : Program) (entity : Entity) (sidecars : Sidecars) (fuel : ℕ)

/-- A declared variable with its room, where the compiler accepts its type. -/
def emittedVariable (d : String × SolTy) : Option Variable :=
  (solRoom (emittedTypes program entity) fuel .contract d.2).map ({ name := d.1, room := · })

def emittedMember (m : Member) : Option (List Variable) :=
  (declaredMember program entity sidecars m).mapM (emittedVariable program entity fuel)

/-- `_initialized`, which the factory's two-step deployment needs. -/
def initializedVariable (deterministic : Bool) : List Variable :=
  if deterministic && hasNonIdentityInitParams entity then
    [{ name := "_initialized", room := .plain (.part 1) }] else []

/-- The storage variables of the contract in the order `gen_entity_contract` prints them.
Constants and the immutable `_factory` take no storage. -/
def emittedVariables (deterministic : Bool) : Option (List Variable) :=
  (entity.members.mapM (emittedMember program entity sidecars fuel)).map fun vss =>
    vss.flatten ++ initializedVariable entity deterministic

end Variables

/-- The byte at which every storage variable begins. -/
def assignedStorage (vars : List Variable) : List (Variable × ℕ) :=
  layOut 32 (fun v => v.room.room) 0 vars

end CambrianLang.Layout
