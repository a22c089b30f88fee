/-
  **Whole programs**: events, errors and the test declarations next to the code
  (`ast.rs`).

  Left out are positions, tags and the settings of a run, which no modelled pass reads.
-/
import CambrianLang.Ast.Entity

namespace CambrianLang.Ast

/-! ### Steps of a test -/

inductive PathSegment where
  | field (name : String)
  | index (key : Expr)
  | tupleIndex (i : Nat)

abbrev FieldPath := List PathSegment

inductive TestEffect where
  | send (message : Option String) (args : List Expr) (dest : Expr) (sendOptions : Option Expr)
  | deploy (entity : String) (sendOptions : Option Expr)
  | platformEffect (name : String) (args : List Expr)

inductive TestEffectElement where
  | effect (e : TestEffect)
  | wildcard

inductive TestStep where
  | setContext (ns : String) (fields : List (String × Expr))
  | setRegistry (entity : String) (codeHash codeDepth wasmHash : Expr)
  | letS (name : String) (ty : Option Ty) (value : Expr)
  | call (target : Option String) (route : String) (args : List Expr)
  | deployPeer (binding entity : String) (args : List Expr) (initState : List (String × Expr))
  | expectState (fields : List (FieldPath × Expr))
  | expectThrow (code : Nat)
  | expectReturn (value : Expr)
  | expectReturnTuple (values : List Expr)
  | expectReturnLens (path : FieldPath) (value : Expr)
  | expectPred (cond : Expr)
  | expectEffects (elements : List TestEffectElement)
  | expectEmit (eventName : String) (args : List Expr)
  | assume (cond : Expr)
  | bound (var : String) (lo hi : Expr) (inclusive : Bool)
  | skipIf (cond : Expr)
  | advanceTime (secs : Expr)

def PathSegment.exprs : PathSegment → List Expr
  | .index key => [key]
  | .field _ | .tupleIndex _ => []

def TestEffectElement.exprs : TestEffectElement → List Expr
  | .effect (.send _ args dest opts) => args ++ dest :: opts.toList
  | .effect (.deploy _ opts) => opts.toList
  | .effect (.platformEffect _ args) => args
  | .wildcard => []

/-- The expressions of a step. -/
def TestStep.exprs : TestStep → List Expr
  | .setContext _ fields => fields.map Prod.snd
  | .setRegistry _ codeHash codeDepth wasmHash => [codeHash, codeDepth, wasmHash]
  | .letS _ _ value => [value]
  | .call _ _ args => args
  | .deployPeer _ _ args initState => args ++ initState.map Prod.snd
  | .expectState fields => fields.flatMap fun f => f.1.flatMap PathSegment.exprs ++ [f.2]
  | .expectThrow _ => []
  | .expectReturn value => [value]
  | .expectReturnTuple values => values
  | .expectReturnLens path value => path.flatMap PathSegment.exprs ++ [value]
  | .expectPred cond | .assume cond | .skipIf cond => [cond]
  | .expectEffects elements => elements.flatMap TestEffectElement.exprs
  | .expectEmit _ args => args
  | .bound _ lo hi _ => [lo, hi]
  | .advanceTime secs => [secs]

/-! ### Declarations -/

structure EventParam where
  indexed : Bool
  name : String
  ty : Ty

structure EventDecl where
  name : String
  params : List EventParam

structure ErrorDecl where
  name : String
  params : List Param

/-- `using .. for T`; what is attached to the type is left out. -/
structure UsingDecl where
  targetType : Ty

structure Contract extends Entity where
  events : List EventDecl
  errors : List ErrorDecl

structure TestDecl where
  name : String
  entityName : String
  initState : List (String × Expr)
  skipFrom : Bool
  body : List TestStep

structure FuzzDecl extends TestDecl where
  params : List Param

/-- A property; its instances are desugared into tests and fuzz tests. -/
structure PropertyDecl where
  name : String
  entityName : String
  params : List Param
  initState : List (String × Expr)
  body : List TestStep

structure InvariantInstance where
  name : String
  entity : String
  init : List (String × Expr)

structure InvariantAction where
  instanceName : String
  route : String
  params : List Param
  body : List TestStep

structure InvariantQuery where
  name : String
  params : List Param
  returnType : Ty
  body : List TestStep
  returnValue : Expr

structure InvariantDecl where
  name : String
  instances : List InvariantInstance
  senders : List Expr
  deploy : List Expr
  actions : List InvariantAction
  checks : List Expr
  failOnRevert : Bool
  withTime : Bool
  track : List (String × Expr)
  derived : List InvariantQuery
  excludeSenders : List Expr
  excludeSelectors : List String

/-- `Program` with all its declarations. -/
structure Source where
  pureFns : List PureFn
  typeAliases : List TypeAlias
  records : List Record
  enums : List EnumDecl
  entities : List Contract
  externEntities : List ExternEntity
  tests : List TestDecl
  properties : List PropertyDecl
  fuzzTests : List FuzzDecl
  invariants : List InvariantDecl
  events : List EventDecl
  errors : List ErrorDecl
  libraries : List LibraryDecl
  usingDecls : List UsingDecl

end CambrianLang.Ast
