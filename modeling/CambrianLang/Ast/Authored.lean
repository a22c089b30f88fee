/-
  **A program as its author wrote it** (`ast.rs`): every declaration form, with the
  instances, contexts and catalog links that the passes between the loader and the
  validator read, and the places an expression can stand in.

  Positions in the source text are left out, and `solidity_import`, which no
  modelled pass reads.
-/
import CambrianLang.Ast.Tests

namespace CambrianLang.Authored

open Ast

/-! ### Equality of types -/

mutual
def decEqTy : (s t : Ty) → Decidable (s = t)
  | .simple m, .simple n => decidable_of_iff (m = n) (by simp)
  | .generic m ss, .generic n ts =>
    have := decEqTys ss ts
    decidable_of_iff (m = n ∧ ss = ts) (by simp)
  | .tuple ss, .tuple ts =>
    have := decEqTys ss ts
    decidable_of_iff (ss = ts) (by simp)
  | .typedAddress m, .typedAddress n => decidable_of_iff (m = n) (by simp)
  | .simple _, .generic .. | .simple _, .tuple _ | .simple _, .typedAddress _
  | .generic .., .simple _ | .generic .., .tuple _ | .generic .., .typedAddress _
  | .tuple _, .simple _ | .tuple _, .generic .. | .tuple _, .typedAddress _
  | .typedAddress _, .simple _ | .typedAddress _, .generic .. | .typedAddress _, .tuple _ =>
    isFalse (by simp)
def decEqTys : (ss ts : List Ty) → Decidable (ss = ts)
  | [], [] => isTrue rfl
  | s :: ss, t :: ts =>
    have := decEqTy s t
    have := decEqTys ss ts
    decidable_of_iff (s = t ∧ ss = ts) (by simp)
  | [], _ :: _ | _ :: _, [] => isFalse (by simp)
end

instance : DecidableEq Ty := decEqTy

deriving instance DecidableEq for Param

/-! ### Test declarations -/

inductive ForallTarget where
  | stateField (name : String)
  | context (ns field : String)
deriving DecidableEq

structure ForallSpec where
  targets : List ForallTarget
  allState : Bool
deriving DecidableEq

/-- `ForallSpec::default`. -/
def ForallSpec.default : ForallSpec := ⟨[], false⟩

/-- `ForallSpec::is_empty`. -/
def ForallSpec.isEmpty (spec : ForallSpec) : Bool := spec.targets.isEmpty && !spec.allState

/-- One entry of a `ctx` block; without a value it is a `*`. -/
structure ContextEntry where
  ns : String
  field : String
  value : Option Expr

structure ContextSpec where
  entries : List ContextEntry

/-- `ContextSpec::is_empty`. -/
def ContextSpec.isEmpty (ctx : ContextSpec) : Bool := ctx.entries.isEmpty

structure TestDecl where
  name : String
  entityName : String
  initState : List (String × Expr)
  skipFrom : Bool
  body : List TestStep
  tag : Option String
  instantiates : Option String

structure FuzzDecl extends TestDecl where
  params : List Param
  runs : Option Nat

inductive PropertyInstanceKind where
  | test
  | fuzz
deriving DecidableEq

inductive InstanceArg where
  | concrete (value : Expr)
  | range (lo hi : Expr) (inclusive : Bool)

structure PropertyInstance where
  kind : PropertyInstanceKind
  name : Option String
  bindings : List (String × InstanceArg)
  initState : List (String × Expr)
  forallState : ForallSpec
  context : ContextSpec
  skipFrom : Bool
  runs : Option Nat
  tag : Option String
  bodyDelta : List TestStep
  replaceCatalogBody : Bool

structure PropertyDecl where
  name : String
  entityName : String
  params : List Param
  initState : List (String × Expr)
  forallState : ForallSpec
  context : ContextSpec
  body : List TestStep
  instances : List PropertyInstance
  tag : Option String
  instantiates : Option String

inductive InvariantEmitPolicy where
  | emit
  | superseded
deriving DecidableEq

structure InvariantInstance where
  name : String
  entity : String
  init : List (String × Expr)
  forallState : ForallSpec
  initSpecified : Bool

structure InvariantSetupBinding where
  name : String
  value : Expr

structure InvariantDecl where
  name : String
  instances : List InvariantInstance
  skipFrom : Bool
  senders : List Expr
  deploy : List Expr
  context : ContextSpec
  actions : List InvariantAction
  checks : List Expr
  failOnRevert : Bool
  runs : Option Nat
  depth : Option Nat
  tag : Option String
  instantiates : Option String
  emitPolicy : InvariantEmitPolicy
  withTime : Bool
  track : List InvariantSetupBinding
  derived : List InvariantQuery
  excludeSenders : List Expr
  excludeSelectors : List String

/-- `InvariantDecl::is_single_entity`. -/
def InvariantDecl.isSingleEntity (inv : InvariantDecl) : Bool :=
  inv.instances.length == 1 && (inv.instances.head?.map (·.name)) == some "_self"

/-- `InvariantDecl::entity_name`: the entity of the first instance, without which the
    source panics. -/
def InvariantDecl.entityName (inv : InvariantDecl) : Option String :=
  inv.instances.head?.map (·.entity)

/-! ### Programs -/

inductive UsingItems where
  | functions (names : List String)
  | library (name : String)
deriving DecidableEq

structure UsingDecl where
  items : UsingItems
  targetType : Ty

/-- `import "path"`. -/
structure ImportFile where
  path : String

structure Program where
  imports : List Import
  fileImports : List ImportFile
  pureFns : List PureFn
  typeAliases : List TypeAlias
  records : List Record
  enums : List EnumDecl
  entities : List Contract
  externEntities : List ExternEntity
  tests : List TestDecl
  properties : List PropertyDecl
  fuzzTests : List FuzzDecl
  invariants : List InvariantDecl
  events : List EventDecl
  errors : List ErrorDecl
  libraries : List LibraryDecl
  usingDecls : List UsingDecl

/-- The program without declarations, from which a merge starts. -/
def Program.empty : Program := ⟨[], [], [], [], [], [], [], [], [], [], [], [], [], [], [], []⟩

end CambrianLang.Authored
